import SparkInfer.Lib.PyVal
import SparkInfer.Unified.Locks
import Mathlib.Algebra.Ring.Nat
import Mathlib.Data.List.TakeWhile

/-!
# What the lock walks do to the data

Acquiring adds one to the counts of the nodes it covers, and to nothing else;
releasing with matching parameters takes one from a given list of nodes.  The
sizes, the LRU lists and the leaf sets, which the walks keep up to date on the
way, do not influence the data.
-/

namespace SparkInfer.Unified

open Lib List Finset Data Function

variable {cfg : CoreConfig} {l : Layer} {ct : ComponentType} {n node : NodeId} {ns : List NodeId}
variable {c c' : Core} {d d' : Data}
variable {len : NodeId → Nat} {size : Nat} {cts skips : List ComponentType}
variable {r r' : IncLockRefResult}

namespace Data

variable {window : Nat} {delta : Int}

/-- `delta` more on the counts of the nodes of `ns`. -/
def bump (d : Data) (l : Layer) (ct : ComponentType) (ns : List NodeId) (delta : Int) : Data :=
  { d with lockRef := fun l' ct' n' =>
      d.lockRef l' ct' n' + if l' = l ∧ ct' = ct ∧ n' ∈ ns then delta else 0 }

theorem bump_nil : d.bump l ct [] delta = d := by
  simp [bump]

theorem setLockRef_eq_bump :
    d.setLockRef l ct n (d.lockRef l ct n + delta) = d.bump l ct [n] delta := by
  unfold setLockRef
  congr 1
  funext l' ct' n'
  by_cases h : l' = l ∧ ct' = ct ∧ n' = n
  · obtain ⟨rfl, rfl, rfl⟩ := h
    simp
  · simp only [List.mem_singleton, if_neg h]
    exact (Int.add_zero _).symm

theorem bump_bump {ms : List NodeId} (hdisj : ∀ n ∈ ms, n ∉ ns) :
    (d.bump l ct ms delta).bump l ct ns delta = d.bump l ct (ms ++ ns) delta := by
  unfold bump
  congr 1
  funext l' ct' n'
  by_cases h : l' = l ∧ ct' = ct
  · obtain ⟨rfl, rfl⟩ := h
    by_cases hm : n' ∈ ms
    · simp [hdisj n' hm]
    · simp [hm]
  · have hother : ∀ p : Prop, ¬ (l' = l ∧ ct' = ct ∧ p) := fun p hx => h ⟨hx.1, hx.2.1⟩
    simp only [if_neg (hother _), Int.add_zero]

theorem bump_bump_cons (hn : n ∉ ns) :
    (d.bump l ct [n] delta).bump l ct ns delta = d.bump l ct (n :: ns) delta :=
  bump_bump fun _ hm => List.mem_singleton.mp hm ▸ hn

theorem bump_lockRef_self :
    (d.bump l ct ns delta).lockRef l ct n = d.lockRef l ct n + if n ∈ ns then delta else 0 := by
  simp [bump]

theorem bump_lockRef_of_not_mem (hn : n ∉ ns) :
    (d.bump l ct ns delta).lockRef l ct n = d.lockRef l ct n := by
  simp [bump, hn]

/-! ## What an acquire covers -/

def has (d : Data) (l : Layer) (ct : ComponentType) (n : NodeId) : Bool :=
  decide (d.value l ct n ≠ none)

def swaLen (d : Data) (l : Layer) (n : NodeId) : Nat := ((d.value l .swa n).getD []).length

/-- The nodes a window walk visits, `size` tokens being behind it. -/
def windowWalk (len : NodeId → Nat) (window : Nat) : Nat → List NodeId → List NodeId
  | _, [] => []
  | size, cur :: rest =>
    if size < window then cur :: windowWalk len window (size + len cur) rest else []

def windowLast (len : NodeId → Nat) (window : Nat) : Nat → List NodeId → Option NodeId
  | _, [] => none
  | size, cur :: rest =>
    if window ≤ size + len cur then some cur else windowLast len window (size + len cur) rest

/-- The mark `n` has, or would get, as the end of a window. -/
def windowMark (d : Data) (l : Layer) (n : NodeId) : Nat := (d.uuid l n).getD (d.uuidCounter + 1)

def marked (d : Data) (l : Layer) : Option NodeId → Data
  | none => d
  | some n =>
    match d.uuid l n with
    | some _ => d
    | none => { d.setUuid l n (some (d.uuidCounter + 1)) with uuidCounter := d.uuidCounter + 1 }

theorem marked_bump {e : Option NodeId} :
    (d.bump l ct ns delta).marked l e = (d.marked l e).bump l ct ns delta := by
  cases e with
  | none => rfl
  | some n =>
    have hu : (d.bump l ct ns delta).uuid l n = d.uuid l n := rfl
    simp only [marked, hu]
    cases d.uuid l n with
    | some u | none => rfl

theorem windowWalk_of_le (h : window ≤ size) : windowWalk len window size ns = [] := by
  cases ns with
  | nil => rfl
  | cons n ns => rw [windowWalk, if_neg (by omega)]

theorem windowWalk_of_last_none (hsize : size < window)
    (h : windowLast len window size ns = none) : windowWalk len window size ns = ns := by
  induction ns generalizing size with
  | nil => rfl
  | cons n ns ih =>
    rw [windowLast] at h
    split_ifs at h
    rw [windowWalk, if_pos hsize, ih (by omega) h]

theorem windowWalk_of_last_some {last : NodeId} (hsize : size < window)
    (h : windowLast (d.swaLen l) window size ns = some last) :
    ∃ first, windowWalk (d.swaLen l) window size ns = first ++ [last] ∧ d.has l .swa last = true := by
  induction ns generalizing size with
  | nil => cases h
  | cons n ns ih =>
    rw [windowLast] at h
    rw [windowWalk, if_pos hsize]
    split_ifs at h with hfull
    · cases h
      refine ⟨[], by rw [windowWalk_of_le hfull]; rfl, ?_⟩
      cases hv : d.value l .swa last with
      | none =>
        rw [swaLen, hv, Option.getD_none, length_nil] at hfull
        omega
      | some v => simp [has, hv]
    · obtain ⟨first, hwalk, hlast⟩ := ih (by omega) h
      exact ⟨n :: first, by rw [hwalk]; rfl, hlast⟩

theorem windowWalk_stops (len : NodeId → Nat) (window size : Nat) (ns : List NodeId) : ∃ above,
    ns = windowWalk len window size ns ++ above ∧
      (above = [] ∨ window ≤ size + ((windowWalk len window size ns).map len).sum) := by
  induction ns generalizing size with
  | nil => exact ⟨[], rfl, .inl rfl⟩
  | cons n ns ih =>
    rw [windowWalk]
    split_ifs with hsize
    · obtain ⟨above, hsplit, hstop⟩ := ih (size + len n)
      exact ⟨above, by rw [cons_append, ← hsplit], by simpa [add_assoc] using hstop⟩
    · exact ⟨n :: ns, rfl, .inr (by simpa using hsize)⟩

theorem windowWalk_subset : windowWalk len window size ns ⊆ ns :=
  let ⟨above, hsplit, _⟩ := windowWalk_stops len window size ns
  IsPrefix.subset ⟨above, hsplit.symm⟩

/-- The nodes whose count an acquire raises. -/
def covered (cfg : CoreConfig) (d : Data) (l : Layer) (node : NodeId) : ComponentType → List NodeId
  | .full =>
    match l with
    | .device => (d.tree.climb node).dropWhile fun n => decide (d.value .device .full n = none)
    | .host =>
      if d.value .host .full node = none ∧ cfg.isWriteBack = false then [] else [node]
  | .swa =>
    (windowWalk (d.swaLen l) cfg.slidingWindowSize 0 (d.tree.climb node)).filter (d.has l .swa)
  | .mamba => if node = d.tree.rootNode ∨ d.value l .mamba node = none then [] else [node]

def skipped (cfg : CoreConfig) (d : Data) (l : Layer) (node : NodeId) :
    ComponentType → Finset NodeId
  | .full =>
    match l with
    | .device =>
      ((d.tree.climb node).takeWhile fun n => decide (d.value .device .full n = none)).toFinset
    | .host => ∅
  | .swa => ((windowWalk (d.swaLen l) cfg.slidingWindowSize 0 (d.tree.climb node)).filter
      fun n => !d.has l .swa n).toFinset
  | .mamba => if node ≠ d.tree.rootNode ∧ d.value l .mamba node = none then {node} else ∅

/-- The end of the trailing window of `node`, if there are enough values. -/
def windowEnd (cfg : CoreConfig) (d : Data) (l : Layer) (node : NodeId) : Option NodeId :=
  windowLast (d.swaLen l) cfg.slidingWindowSize 0 (d.tree.climb node)

/-! The coverage is read off the tree and the values. -/

theorem has_congr (hv : d'.value = d.value) : d'.has = d.has := by
  unfold has
  rw [hv]

theorem swaLen_congr (hv : d'.value = d.value) : d'.swaLen = d.swaLen := by
  unfold swaLen
  rw [hv]

section

variable (ht : d'.tree = d.tree) (hv : d'.value = d.value)
include ht hv

theorem covered_congr : d'.covered cfg l node = d.covered cfg l node := by
  funext ct
  simp only [covered, ht, hv, swaLen_congr hv, has_congr hv]

theorem skipped_congr : d'.skipped cfg l node = d.skipped cfg l node := by
  funext ct
  simp only [skipped, ht, hv, swaLen_congr hv, has_congr hv]

theorem windowEnd_congr : d'.windowEnd cfg l node = d.windowEnd cfg l node := by
  unfold windowEnd
  rw [ht, swaLen_congr hv]

end

theorem marked_frame (d : Data) (l : Layer) (e : Option NodeId) :
    (d.marked l e).tree = d.tree ∧ (d.marked l e).value = d.value ∧
      (d.marked l e).lockRef = d.lockRef := by
  cases e with
  | none => exact ⟨rfl, rfl, rfl⟩
  | some n =>
    simp only [marked]
    cases d.uuid l n with
    | some u | none => exact ⟨rfl, rfl, rfl⟩

end Data

namespace Core

open Data (windowWalk windowLast)

/-! ## Acquiring -/

theorem fullLockUp_spec {delta delta' : Int} (hns : ns.Nodup)
    (h : c.fullLockUp delta ns = .ok (c', delta')) :
    c'.toData = c.toData.bump .device .full ns 1 ∧ ∀ n ∈ ns, c.value .device .full n ≠ none := by
  induction ns generalizing c delta with
  | nil =>
    cases h
    exact ⟨bump_nil.symm, by simp⟩
  | cons n ns ih =>
    obtain ⟨hn, hns⟩ := nodup_cons.mp hns
    rw [fullLockUp] at h
    cases hv : c.value .device .full n with
    | none =>
      rw [hv] at h
      cases h
    | some v =>
      rw [hv] at h
      obtain ⟨hdata, hrest⟩ := ih hns h
      refine ⟨?_, fun m hm => ?_⟩
      · rw [hdata, ← bump_bump_cons hn, ← setLockRef_eq_bump]
        rfl
      rcases mem_cons.mp hm with rfl | hm
      · rw [hv]
        simp
      · exact hrest m hm

theorem markWindow_spec (c : Core) (l : Layer) (n : NodeId) :
    (c.markWindow l n).1.toData = c.toData.marked l (some n) ∧
      (c.markWindow l n).2 = c.toData.windowMark l n := by
  simp only [markWindow, marked, windowMark]
  cases c.uuid l n with
  | some u | none => exact ⟨rfl, rfl⟩

theorem beforeFirstLock_toData (c : Core) (l : Layer) (ct : ComponentType) (n : NodeId)
    (len : Nat) : (c.beforeFirstLock l ct n len).toData = c.toData := by
  unfold beforeFirstLock
  split_ifs
  · cases l with
    | device | host => rfl
  · rfl

theorem lockOne_toData (c : Core) (l : Layer) (ct : ComponentType) (n : NodeId) (len : Nat) :
    ((c.beforeFirstLock l ct n len).setLockRef l ct n
      ((c.beforeFirstLock l ct n len).lockRef l ct n + 1)).toData = c.toData.bump l ct [n] 1 := by
  rw [← setLockRef_eq_bump, ← beforeFirstLock_toData c l ct n len]
  rfl

theorem swaLockUp_of_le {skip : Finset NodeId} {uuid : Option Nat}
    (h : cfg.slidingWindowSize ≤ size) : swaLockUp cfg l c size skip uuid ns = (c, skip, uuid) := by
  cases ns with
  | nil => rfl
  | cons n ns => rw [swaLockUp, if_neg (by omega)]

theorem swaLockUp_spec (hns : ns.Nodup) :
    ∀ {c c' : Core} {size : Nat} {skip skip' : Finset NodeId} {uuid uuid' : Option Nat},
      size < cfg.slidingWindowSize → swaLockUp cfg l c size skip uuid ns = (c', skip', uuid') →
      c'.toData =
          (c.toData.marked l (windowLast (c.toData.swaLen l) cfg.slidingWindowSize size ns)).bump l .swa
            ((windowWalk (c.toData.swaLen l) cfg.slidingWindowSize size ns).filter (c.toData.has l .swa)) 1 ∧
        skip' = skip ∪ ((windowWalk (c.toData.swaLen l) cfg.slidingWindowSize size ns).filter
          fun n => !c.toData.has l .swa n).toFinset ∧
        uuid' = ((windowLast (c.toData.swaLen l) cfg.slidingWindowSize size ns).map
          (c.toData.windowMark l)).or uuid := by
  induction ns with
  | nil =>
    intro c c' size skip skip' uuid uuid' hsize h
    cases h
    refine ⟨?_, ?_, rfl⟩
    · exact bump_nil.symm
    · exact (union_empty _).symm
  | cons n ns ih =>
    intro c c' size skip skip' uuid uuid' hsize h
    obtain ⟨hn, hns⟩ := nodup_cons.mp hns
    rw [swaLockUp, if_pos hsize] at h
    rw [windowWalk, if_pos hsize, windowLast]
    cases hv : c.value l .swa n with
    | none =>
      rw [hv] at h
      have hlen : c.toData.swaLen l n = 0 := by rw [swaLen, hv]; rfl
      have hnot : c.toData.has l .swa n = false := by simp [has, hv]
      obtain ⟨hdata, hskip, huuid⟩ := ih hns hsize h
      rw [hlen, add_zero, if_neg (by omega), filter_cons_of_neg (by simp [hnot]),
        List.filter_cons_of_pos (by simp [hnot]), toFinset_cons]
      refine ⟨hdata, ?_, huuid⟩
      rw [hskip, insert_union, union_insert]
    | some v =>
      rw [hv] at h
      have hlen : c.toData.swaLen l n = v.length := by rw [swaLen, hv]; rfl
      have hhas : c.toData.has l .swa n = true := by simp [has, hv]
      have hone := lockOne_toData c l .swa n (c.tree.keyLen n)
      rw [hlen, filter_cons_of_pos hhas, filter_cons_of_neg (by simp [hhas])]
      simp only at h
      generalize (c.beforeFirstLock l .swa n (c.tree.keyLen n)).setLockRef l .swa n
        ((c.beforeFirstLock l .swa n (c.tree.keyLen n)).lockRef l .swa n + 1) = c₁ at h hone
      split_ifs at h ⊢ with hfull
      · -- the value on the node completes the window, the node gets its mark
        obtain ⟨hmark, hu⟩ := markWindow_spec c₁ l n
        rw [swaLockUp_of_le hfull] at h
        cases h
        rw [windowWalk_of_le hfull, hmark, hone, marked_bump, hu, hone]
        exact ⟨rfl, (union_empty _).symm, rfl⟩
      · obtain ⟨hdata, hskip, huuid⟩ := ih hns (by omega) h
        rw [hone] at hdata hskip huuid
        refine ⟨?_, hskip, huuid⟩
        rw [hdata, marked_bump]
        exact bump_bump_cons fun hmem =>
          hn (windowWalk_subset (mem_filter.mp hmem).1)

structure ComponentAcquired (cfg : CoreConfig) (l : Layer) (node : NodeId) (ct : ComponentType)
    (d : Data) (r : IncLockRefResult) (d' : Data) (r' : IncLockRefResult) : Prop where
  data : d' = (d.marked l (if ct = .swa then d.windowEnd cfg l node else none)).bump l ct
    (d.covered cfg l node ct) 1
  present : (ct = .full → l = .device) → ∀ n ∈ d.covered cfg l node ct, d.value l ct n ≠ none
  skip : r'.skipLockNodeIds =
    update r.skipLockNodeIds ct (r.skipLockNodeIds ct ∪ d.skipped cfg l node ct)
  swaUuid : r'.swaUuid = if ct = .swa then
      update r.swaUuid l ((d.windowEnd cfg l node).map (d.windowMark l))
    else r.swaUuid

theorem skip_none : update r.skipLockNodeIds ct (r.skipLockNodeIds ct ∪ ∅) = r.skipLockNodeIds := by
  rw [union_empty, update_eq_self]

theorem fullAcquire_spec (hnd : (c.tree.climb node).Nodup)
    (h : c.fullAcquire cfg l node r = .ok (c', r')) :
    ComponentAcquired cfg l node .full c.toData r c'.toData r' := by
  unfold fullAcquire at h
  cases l with
  | host =>
    split_ifs at h with hnone
    · cases h
      refine ⟨?_, fun hl => (nomatch hl rfl), (skip_none).symm, rfl⟩
      have hcov : c.toData.covered cfg .host node .full = [] := if_pos hnone
      rw [hcov, bump_nil]
      rfl
    · cases h
      refine ⟨?_, fun hl => (nomatch hl rfl), (skip_none).symm, rfl⟩
      have hcov : c.toData.covered cfg .host node .full = [node] := if_neg hnone
      rw [hcov, ← setLockRef_eq_bump]
      rfl
  | device =>
    obtain ⟨⟨c₁, delta⟩, hup, hok⟩ := bind_ok h
    cases hok
    obtain ⟨hdata, hval⟩ := fullLockUp_spec (hnd.sublist (dropWhile_sublist _)) hup
    exact ⟨hdata, fun _ => hval, rfl, rfl⟩

theorem swaAcquire_spec (hnd : (c.tree.climb node).Nodup)
    (h : c.swaAcquire cfg l node r = (c', r')) :
    ComponentAcquired cfg l node .swa c.toData r c'.toData r' := by
  unfold swaAcquire at h
  generalize hrun : swaLockUp cfg l c 0 ∅ none (c.tree.climb node) = res at h
  obtain ⟨hdata, hskip, huuid⟩ := swaLockUp_spec hnd cfg.window_pos hrun
  cases h
  refine ⟨hdata, fun _ n hn => ?_, ?_, ?_⟩
  · have hhas := (mem_filter.mp hn).2
    simpa [has] using hhas
  · simp only [hskip]
    rfl
  · simp only [huuid, Option.or_none]
    rfl

theorem mambaAcquire_spec (h : c.mambaAcquire l node r = (c', r')) :
    ComponentAcquired cfg l node .mamba c.toData r c'.toData r' := by
  unfold mambaAcquire at h
  split_ifs at h with hroot
  · cases h
    have hcov : c.toData.covered cfg l node .mamba = [] := if_pos (.inl hroot)
    refine ⟨?_, fun _ n hn => absurd hn (by simp [hcov]), ?_, rfl⟩
    · rw [hcov, bump_nil]
      rfl
    · rw [skipped, if_neg (fun hx => hx.1 hroot), skip_none]
  cases hv : c.value l .mamba node with
  | none =>
    rw [hv] at h
    cases h
    have hcov : c.toData.covered cfg l node .mamba = [] := if_pos (.inr hv)
    refine ⟨?_, fun _ n hn => absurd hn (by simp [hcov]), ?_, rfl⟩
    · rw [hcov, bump_nil]
      rfl
    · rw [skipped, if_pos ⟨hroot, hv⟩]
      rfl
  | some v =>
    rw [hv] at h
    cases h
    have hcov : c.toData.covered cfg l node .mamba = [node] := if_neg (by simp [hroot, hv])
    refine ⟨?_, fun _ n hn => ?_, ?_, rfl⟩
    · rw [hcov]
      exact lockOne_toData c l .mamba node v.length
    · rw [hcov, List.mem_singleton] at hn
      rw [hn, hv]
      simp
    · rw [skipped, if_neg (by simp [hv]), skip_none]

theorem acquireComponentLock_spec (hnd : (c.tree.climb node).Nodup)
    (h : c.acquireComponentLock cfg l ct node r = .ok (c', r')) :
    ComponentAcquired cfg l node ct c.toData r c'.toData r' := by
  cases ct with
  | full => exact fullAcquire_spec hnd h
  | swa => exact swaAcquire_spec hnd (Except.ok.inj h)
  | mamba => exact mambaAcquire_spec (Except.ok.inj h)

def newSkips (cfg : CoreConfig) (d : Data) (l : Layer) (node : NodeId) (skips : List ComponentType)
    (ct : ComponentType) : Finset NodeId :=
  if ct ∈ skips then (if node = d.tree.rootNode then ∅ else {node}) else d.skipped cfg l node ct

structure Acquired (cfg : CoreConfig) (l : Layer) (node : NodeId) (skips cts : List ComponentType)
    (d : Data) (r : IncLockRefResult) (d' : Data) (r' : IncLockRefResult) : Prop where
  tree : d'.tree = d.tree
  value : d'.value = d.value
  lockRef : ∀ l' ct n, d'.lockRef l' ct n = d.lockRef l' ct n +
    if l' = l ∧ (ct ∈ cts ∧ ct ∉ skips) ∧ n ∈ d.covered cfg l node ct then 1 else 0
  present : ∀ ct ∈ cts, ct ∉ skips → (ct = .full → l = .device) →
    ∀ n ∈ d.covered cfg l node ct, d.value l ct n ≠ none
  marks : ∀ e, e = (if .swa ∈ cts ∧ .swa ∉ skips then d.windowEnd cfg l node else none) →
    d'.uuid = (d.marked l e).uuid ∧ d'.uuidCounter = (d.marked l e).uuidCounter
  skip : ∀ ct, r'.skipLockNodeIds ct = r.skipLockNodeIds ct ∪
    if ct ∈ cts then newSkips cfg d l node skips ct else ∅
  swaUuid : r'.swaUuid = if .swa ∈ cts ∧ .swa ∉ skips then
      update r.swaUuid l ((d.windowEnd cfg l node).map (d.windowMark l))
    else r.swaUuid

theorem Acquired.nil : Acquired cfg l node skips [] d r d r where
  tree := rfl
  value := rfl
  lockRef := by simp
  present := by simp
  marks := by
    intro e he
    rw [he]
    exact ⟨rfl, rfl⟩
  skip := by simp
  swaUuid := by rw [if_neg (by simp)]

theorem Acquired.skipped (hct : ct ∈ skips) (hcts : ct ∉ cts)
    (h : Acquired cfg l node skips cts d (if node = d.tree.rootNode then r else r.skip ct {node}) d' r') :
    Acquired cfg l node skips (ct :: cts) d r d' r' := by
  have htaken : ∀ x, (x ∈ ct :: cts ∧ x ∉ skips) ↔ (x ∈ cts ∧ x ∉ skips) := by
    intro x
    rw [List.mem_cons]
    exact and_congr_left fun hs => or_iff_right fun hx => hs (hx ▸ hct)
  have hr : (if node = d.tree.rootNode then r else r.skip ct {node}).swaUuid = r.swaUuid := by
    split_ifs <;> rfl
  constructor
  · exact h.tree
  · exact h.value
  · simpa only [htaken] using h.lockRef
  · intro x hx hs
    exact h.present x ((htaken x).mp ⟨hx, hs⟩).1 hs
  · simpa only [htaken] using h.marks
  · intro x
    rw [h.skip x]
    by_cases hx : x = ct
    · subst hx
      rw [if_neg hcts, if_pos (List.mem_cons_self ..), newSkips]
      split_ifs
      · rw [union_empty]
      · simp [IncLockRefResult.skip]
    · have hrest : x ∈ ct :: cts ↔ x ∈ cts := by simp [hx]
      simp only [hrest]
      congr 1
      split_ifs
      · rfl
      · simp [IncLockRefResult.skip, hx]
  · simpa only [htaken, hr] using h.swaUuid

theorem ComponentAcquired.frame
    (h : ComponentAcquired cfg l node ct d r d' r') : d'.tree = d.tree ∧ d'.value = d.value := by
  have hmark := marked_frame d l (if ct = .swa then d.windowEnd cfg l node else none)
  rw [h.data]
  exact ⟨hmark.1, hmark.2.1⟩

theorem ComponentAcquired.lockRef
    (h : ComponentAcquired cfg l node ct d r d' r') (l' : Layer) (ct' : ComponentType)
    (n : NodeId) : d'.lockRef l' ct' n = d.lockRef l' ct' n +
      if l' = l ∧ ct' = ct ∧ n ∈ d.covered cfg l node ct then 1 else 0 := by
  have hmark := marked_frame d l (if ct = .swa then d.windowEnd cfg l node else none)
  rw [h.data, bump, hmark.2.2]

theorem Acquired.cons {d₁ : Data} {r₁ : IncLockRefResult} (hct : ct ∉ skips) (hcts : ct ∉ cts)
    (h₁ : ComponentAcquired cfg l node ct d r d₁ r₁)
    (h : Acquired cfg l node skips cts d₁ r₁ d' r') :
    Acquired cfg l node skips (ct :: cts) d r d' r' := by
  obtain ⟨ht, hv⟩ := h₁.frame
  have hend : d₁.windowEnd cfg l node = d.windowEnd cfg l node := windowEnd_congr ht hv
  have hrest : ∀ {x}, x ≠ ct → (x ∈ ct :: cts ↔ x ∈ cts) := by
    intro x hx
    simp [hx]
  constructor
  · rw [h.tree, ht]
  · rw [h.value, hv]
  · intro l' x n
    rw [h.lockRef, h₁.lockRef, covered_congr ht hv]
    by_cases hx : x = ct
    · subst hx
      simp [hcts, hct]
    · simp [hx]
  · intro x hx hs hl
    rcases mem_cons.mp hx with rfl | hx
    · exact h₁.present hl
    · rw [← covered_congr ht hv, ← hv]
      exact h.present x hx hs hl
  · intro e he
    by_cases hswa : ct = .swa
    · subst hswa
      rw [if_pos ⟨mem_cons_self .., hct⟩] at he
      have hrun := h.marks none (by rw [if_neg fun hx => hcts hx.1])
      rw [hrun.1, hrun.2, h₁.data, he]
      exact ⟨rfl, rfl⟩
    · simp only [hrest (Ne.symm hswa), ← hend] at he
      have hrun := h.marks e he
      rw [hrun.1, hrun.2, h₁.data, marked_bump, if_neg hswa]
      exact ⟨rfl, rfl⟩
  · intro x
    have hnew : newSkips cfg d₁ l node skips x = newSkips cfg d l node skips x := by
      unfold newSkips
      rw [ht, skipped_congr ht hv]
    rw [h.skip, h₁.skip, hnew]
    by_cases hx : x = ct
    · subst hx
      rw [if_neg hcts, if_pos (List.mem_cons_self ..), newSkips, if_neg hct, update_self,
        union_empty]
    · rw [update_of_ne hx]
      simp only [hrest hx]
  · rw [h.swaUuid, h₁.swaUuid, hend]
    by_cases hswa : ct = .swa
    · subst hswa
      rw [if_neg (fun hx => hcts hx.1), if_pos rfl, if_pos ⟨mem_cons_self .., hct⟩]
    have hmark : d₁.windowMark l = d.windowMark l := by
      rw [h₁.data, if_neg hswa]
      rfl
    simp only [hrest (Ne.symm hswa), if_neg hswa, hmark]

theorem acquireAll_spec (hcts : cts.Nodup) :
    ∀ {c : Core} {r r' : IncLockRefResult}, (c.tree.climb node).Nodup →
      acquireAll cfg l node skips cts c r = .ok (c', r') →
        Acquired cfg l node skips cts c.toData r c'.toData r' := by
  induction cts with
  | nil =>
    intro c r r' hnd h
    cases h
    exact .nil
  | cons ct cts ih =>
    intro c r r' hnd h
    obtain ⟨hct, hcts⟩ := nodup_cons.mp hcts
    rw [acquireAll] at h
    by_cases hskip : ct ∈ skips
    · rw [if_pos hskip] at h
      exact Acquired.skipped hskip hct (ih hcts hnd h)
    rw [if_neg hskip] at h
    obtain ⟨⟨c₁, r₁⟩, hone, hrest⟩ := bind_ok h
    have h₁ := acquireComponentLock_spec hnd hone
    have hnd₁ : (c₁.tree.climb node).Nodup := by rw [h₁.frame.1]; exact hnd
    exact Acquired.cons hskip hct h₁ (ih hcts hnd₁ hrest)

theorem incLockRef_spec (hwf : c.tree.WF) (h : c.incLockRef cfg node skips = .ok (c', r)) :
    node ∈ c.tree.arena ∧
      Acquired cfg .device node skips cfg.components c.toData .empty c'.toData r := by
  unfold incLockRef at h
  split_ifs at h with hnode
  obtain ⟨⟨c₁, r₁⟩, hall, hok⟩ := bind_ok h
  cases hok
  refine ⟨hnode, ?_⟩
  rw [updateEvictableLeafSets_toData]
  exact acquireAll_spec cfg.components_nodup (hwf.climb_nodup hnode) hall

end Core

end SparkInfer.Unified
