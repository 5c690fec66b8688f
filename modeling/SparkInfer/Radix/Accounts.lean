import SparkInfer.Radix.Walk
import Mathlib.Algebra.BigOperators.Group.Finset.Basic
import Mathlib.Algebra.BigOperators.Ring.Finset
import Mathlib.Tactic.Ring

/-!
# Sizes, leaves and locks

`evictable_size_`, `protected_size_` and `evictable_leaves` are caches of facts
about the tree, kept up to date by hand.  `Sized` says what they cache, in terms of
the stored lock counts; `Locked` says what the lock counts are, in terms of the
locks that are held.  Every write of the cache keeps both.
-/

namespace SparkInfer.Radix

open Lib Finset Function Tree Forest

variable {child n p x : NodeId} {splitLen : Nat} {ck headKey tailKey : PyVal}
variable {t' : Tree} {node : NodeId} {key : RadixKey} {value : List Int}

/-- The units of the non-root nodes whose lock count satisfies `p`. -/
def sizeWhere (t : Tree) (nodes : Finset NodeId) (p : Int → Bool) : Int :=
  ∑ n ∈ nodes.erase t.rootNode, if p (t.lockRef n) then ((t.key n).len : Int) else 0

structure Sized (t : Tree) (nodes : Finset NodeId) : Prop where
  root_lock : t.lockRef t.rootNode = 1
  lock_nonneg : ∀ n ∈ nodes, 0 ≤ t.lockRef n
  evictable : t.evictableSize = sizeWhere t nodes (· == 0)
  locked : t.protectedSize = sizeWhere t nodes (0 < ·)
  leaves : ∀ n, n ∈ t.evictableLeaves ↔
    n ∈ nodes ∧ n ≠ t.rootNode ∧ t.lockRef n = 0 ∧ (t.children n).keys = []

/-- The lock counts are those of the locks taken and not yet given back. -/
structure Locked (t : Tree) (nodes : Finset NodeId) (held : List NodeId) : Prop where
  held_mem : ∀ h ∈ held, h ∈ nodes
  cover : ∀ n ∈ nodes, n ≠ t.rootNode → t.lockRef n = (t.trie nodes).toForest.cover held n

/-! ## Sums over the nodes -/

theorem sum_change {S : Finset NodeId} {f g : NodeId → Int} (hn : n ∈ S)
    (h : ∀ x ∈ S, x ≠ n → f x = g x) : ∑ x ∈ S, f x = ∑ x ∈ S, g x + (f n - g n) := by
  have hrest : ∑ x ∈ S.erase n, f x = ∑ x ∈ S.erase n, g x := by
    apply sum_congr rfl
    intro x hx
    exact h x (mem_of_mem_erase hx) (ne_of_mem_erase hx)
  rw [← add_sum_erase S f hn, ← add_sum_erase S g hn, hrest]
  ring

section

variable {pageSize : Nat} {t : Tree} {nodes : Finset NodeId}

theorem sizeWhere_update (hn : n ∈ nodes) (hne : n ≠ t.rootNode)
    (hskel : t'.toSkeleton = t.toSkeleton) (hlock : ∀ x, x ≠ n → t'.lockRef x = t.lockRef x)
    (p : Int → Bool) : sizeWhere t' nodes p = sizeWhere t nodes p +
      ((if p (t'.lockRef n) then ((t.key n).len : Int) else 0) -
        if p (t.lockRef n) then ((t.key n).len : Int) else 0) := by
  have hroot : t'.rootNode = t.rootNode := congrArg Skeleton.rootNode hskel
  have hkey : t'.key = t.key := congrArg Skeleton.key hskel
  unfold sizeWhere
  rw [hroot, sum_change (mem_erase.mpr ⟨hne, hn⟩), hkey]
  intro x _ hxn
  rw [hlock x hxn, hkey]

theorem Sized.lockRound (lock : Int) (h : Sized t nodes) (hn : n ∈ nodes) (hne : n ≠ t.rootNode)
    (hnonneg : 0 ≤ lock) (hskel : t'.toSkeleton = t.toSkeleton)
    (hlock : t'.lockRef = Function.update t.lockRef n lock)
    (hev : t'.evictableSize = t.evictableSize + ((if lock = 0 then ((t.key n).len : Int) else 0) - if t.lockRef n = 0 then ((t.key n).len : Int) else 0))
    (hprot : t'.protectedSize = t.protectedSize + ((if 0 < lock then ((t.key n).len : Int) else 0) - if 0 < t.lockRef n then ((t.key n).len : Int) else 0))
    (hleaves : ∀ x, x ∈ t'.evictableLeaves ↔ if x = n then lock ≤ 0 ∧ (t.children n).keys = [] else x ∈ t.evictableLeaves) :
    Sized t' nodes := by
  have hother : ∀ x, x ≠ n → t'.lockRef x = t.lockRef x := by
    intro x hx
    rw [hlock, update_of_ne hx]
  have hself : t'.lockRef n = lock := by rw [hlock, update_self]
  have hroot : t'.rootNode = t.rootNode := congrArg Skeleton.rootNode hskel
  have hchildren : t'.children = t.children := congrArg Skeleton.children hskel
  refine ⟨?_, ?_, ?_, ?_, ?_⟩
  · rw [hroot, hother _ hne.symm, h.root_lock]
  · intro x hx
    by_cases hxn : x = n
    · rwa [hxn, hself]
    · rw [hother x hxn]
      exact h.lock_nonneg x hx
  · rw [sizeWhere_update hn hne hskel hother, hself, ← h.evictable, hev]
    simp only [beq_iff_eq]
  · rw [sizeWhere_update hn hne hskel hother, hself, ← h.locked, hprot]
    simp only [decide_eq_true_eq]
  · intro x
    rw [hleaves, hroot, hchildren]
    by_cases hxn : x = n
    · subst hxn
      rw [if_pos rfl]
      constructor
      · rintro ⟨h1, h2⟩
        exact ⟨hn, hne, by omega, h2⟩
      · rintro ⟨-, -, h1, h2⟩
        exact ⟨by omega, h2⟩
    · rw [if_neg hxn, hother x hxn]
      exact h.leaves x

@[simp] theorem incLock_lockRef (t : Tree) (n : NodeId) :
    (t.incLock n).lockRef = Function.update t.lockRef n (t.lockRef n + 1) := by
  simp [incLock]

@[simp] theorem decLock_lockRef (t : Tree) (n : NodeId) :
    (t.decLock n).lockRef = Function.update t.lockRef n (t.lockRef n - 1) := by
  simp [decLock]

theorem Sized.incLock (h : Sized t nodes) (hn : n ∈ nodes) (hne : n ≠ t.rootNode) :
    Sized (t.incLock n) nodes := by
  have hnonneg := h.lock_nonneg n hn
  refine h.lockRound (t.lockRef n + 1) hn hne (by omega) (by simp) (by simp) ?_ ?_ ?_
  · simp only [Tree.incLock, Tree.updateLeafStatus_evictableSize]
    split_ifs <;> omega
  · simp only [Tree.incLock, Tree.updateLeafStatus_protectedSize]
    split_ifs <;> omega
  · intro x
    simp only [Tree.incLock, Tree.mem_updateLeafStatus, update_self]

theorem Sized.decLock (h : Sized t nodes) (hn : n ∈ nodes) (hne : n ≠ t.rootNode)
    (hpos : 0 < t.lockRef n) : Sized (t.decLock n) nodes := by
  refine h.lockRound (t.lockRef n - 1) hn hne (by omega) (by simp) (by simp) ?_ ?_ ?_
  · simp only [Tree.decLock, Tree.updateLeafStatus_evictableSize]
    split_ifs <;> omega
  · simp only [Tree.decLock, Tree.updateLeafStatus_protectedSize]
    split_ifs <;> omega
  · intro x
    simp only [Tree.decLock, Tree.mem_updateLeafStatus, update_self]

/-! ## Structural writes -/

theorem sizeWhere_splitNode (h : Shape pageSize t.toSkeleton nodes)
    (g : SplitGuard pageSize t.toSkeleton nodes child p splitLen headKey tailKey) (q : Int → Bool) :
    sizeWhere (t.splitNode child p splitLen headKey tailKey) (insert t.counter nodes) q =
      sizeWhere t nodes q := by
  have hcm := h.ne_counter g.mem
  have hrm : t.counter ≠ t.rootNode := (h.ne_counter h.root_mem).symm
  have hmem := mem_erase.mpr ⟨g.ne_root, g.mem⟩
  have hfresh : t.counter ∉ nodes.erase t.rootNode :=
    fun hin => h.counter_not_mem (mem_of_mem_erase hin)
  unfold sizeWhere
  change ∑ n ∈ (insert t.counter nodes).erase t.rootNode, _ = _
  rw [erase_insert_of_ne hrm, sum_insert hfresh,
    sum_change hmem (g := fun n => if q (t.lockRef n) then ((t.key n).len : Int) else 0)]
  · have hlt := g.lt
    simp only [splitNode, update_self, Skeleton.splitNode_key_child,
      Skeleton.splitNode_key_new hcm, update_of_ne hcm,
      RadixKey.len_getSlice _ hlt.le le_rfl, RadixKey.len_getSlice _ (Nat.zero_le _) hlt.le]
    split_ifs <;> omega
  · intro n hn hnc
    have hnm := h.ne_counter (mem_of_mem_erase hn)
    simp only [splitNode, update_of_ne hnm, Skeleton.splitNode_key_old hnm hnc]

theorem Sized.splitNode (h : Sized t nodes) (hs : Shape pageSize t.toSkeleton nodes)
    (g : SplitGuard pageSize t.toSkeleton nodes child p splitLen headKey tailKey) :
    Sized (t.splitNode child p splitLen headKey tailKey) (insert t.counter nodes) := by
  have hp := hs.mem_of_parent g.mem g.ne_root g.parent
  have hpm := hs.ne_counter hp
  have hlock : ∀ n ∈ nodes, (t.splitNode child p splitLen headKey tailKey).lockRef n =
      t.lockRef n := by
    intro n hn
    simp only [Tree.splitNode, update_of_ne (hs.ne_counter hn)]
  have hnew : (t.splitNode child p splitLen headKey tailKey).lockRef t.counter =
      t.lockRef child := by
    simp [Tree.splitNode]
  refine ⟨?_, ?_, ?_, ?_, ?_⟩
  · exact (hlock _ hs.root_mem).trans h.root_lock
  · intro n hn
    rcases mem_insert.mp hn with rfl | hn
    · rw [hnew]
      exact h.lock_nonneg child g.mem
    · rw [hlock n hn]
      exact h.lock_nonneg n hn
  · exact h.evictable.trans (sizeWhere_splitNode hs g _).symm
  · exact h.locked.trans (sizeWhere_splitNode hs g _).symm
  · intro n
    change n ∈ t.evictableLeaves ↔ _
    -- the new node has a child, and its parent had one before
    have hchildren : ∀ x ∈ nodes,
        ((t.splitNode child p splitLen headKey tailKey).children x).keys = [] ↔
          (t.children x).keys = [] := by
      intro x hx
      by_cases hxp : x = p
      · subst hxp
        have hne : (t.children x).keys ≠ [] := by
          intro hempty
          exact g.ne_root ((hs.children_empty_iff hx).mp hempty child g.mem g.parent)
        have hne' : ((t.splitNode child x splitLen headKey tailKey).children x).keys ≠ [] := by
          change ((t.toSkeleton.splitNode child x splitLen headKey tailKey).children x).keys ≠ []
          rw [Skeleton.splitNode_children_parent hpm]
          simp
        exact iff_of_false hne' hne
      · have hold : (t.splitNode child p splitLen headKey tailKey).children x = t.children x :=
          Skeleton.splitNode_children_old (hs.ne_counter hx) hxp
        rw [hold]
    have hnewchild : ((t.splitNode child p splitLen headKey tailKey).children t.counter).keys ≠
        [] := by
      change ((t.toSkeleton.splitNode child p splitLen headKey tailKey).children t.counter).keys ≠ []
      rw [Skeleton.splitNode_children_new hpm]
      simp
    rw [h.leaves n]
    by_cases hnm : n = t.counter
    · subst hnm
      simp [hs.counter_not_mem, hnewchild]
    · rw [mem_insert, or_iff_right hnm]
      refine and_congr_right fun hn => ?_
      rw [hlock n hn, hchildren n hn]
      rfl

theorem Sized.addLeaf (h : Sized t nodes) (hs : Shape pageSize t.toSkeleton nodes)
    (hnode : node ∈ nodes) : Sized (t.addLeaf node key value ck) (insert t.counter nodes) := by
  have hnm := hs.ne_counter hnode
  have hrm : t.counter ≠ t.rootNode := (hs.ne_counter hs.root_mem).symm
  have hroot : (t.addLeaf node key value ck).rootNode = t.rootNode := by simp [Skeleton.addLeaf]
  have hlockeq : (t.addLeaf node key value ck).lockRef = update t.lockRef t.counter 0 := by
    simp [Tree.addLeaf]
  have hlock : ∀ n ∈ nodes, (t.addLeaf node key value ck).lockRef n = t.lockRef n := by
    intro n hn
    rw [hlockeq, update_of_ne (hs.ne_counter hn)]
  have hnew : (t.addLeaf node key value ck).lockRef t.counter = 0 := by
    rw [hlockeq, update_self]
  have hsize : ∀ q : Int → Bool,
      sizeWhere (t.addLeaf node key value ck) (insert t.counter nodes) q =
        sizeWhere t nodes q + if q 0 then (key.len : Int) else 0 := by
    intro q
    have hfresh : t.counter ∉ nodes.erase t.rootNode :=
      fun hin => hs.counter_not_mem (mem_of_mem_erase hin)
    unfold sizeWhere
    rw [hroot, erase_insert_of_ne hrm, sum_insert hfresh, hnew, add_comm]
    congr 1
    · apply sum_congr rfl
      intro n hn
      have hmem := mem_of_mem_erase hn
      rw [hlock n hmem, addLeaf_toSkeleton, Skeleton.addLeaf_key_old (hs.ne_counter hmem)]
    · rw [addLeaf_toSkeleton, Skeleton.addLeaf_key_new]
  have hchild : ∀ n, ((t.addLeaf node key value ck).children n).keys =
      ((t.toSkeleton.addLeaf node key value ck).children n).keys := by
    intro n
    rw [addLeaf_toSkeleton]
  have hnodekeys : ((t.toSkeleton.addLeaf node key value ck).children node).keys ≠ [] := by
    rw [Skeleton.addLeaf_children_parent hnm]
    simp
  refine ⟨?_, ?_, ?_, ?_, ?_⟩
  · rw [hroot, hlock _ hs.root_mem, h.root_lock]
  · intro n hn
    rcases mem_insert.mp hn with rfl | hn
    · exact hnew.ge
    · rw [hlock n hn]
      exact h.lock_nonneg n hn
  · rw [hsize, ← h.evictable]
    simp [Tree.addLeaf]
  · rw [hsize, ← h.locked]
    simp [Tree.addLeaf]
  · intro n
    rw [hchild, hroot, hlockeq, Tree.addLeaf, Tree.mem_updateLeafStatus]
    by_cases hn : n = t.counter
    · subst hn
      simp [hrm]
    rw [if_neg hn, mem_updateLeafStatus, update_of_ne hn]
    by_cases hnn : n = node
    · subst hnn
      simp [hnodekeys]
    have hold : (t.toSkeleton.addLeaf node key value ck).children n = t.children n :=
      Skeleton.addLeaf_children_old hn hnn
    rw [if_neg hnn, hold, mem_insert, or_iff_right hn]
    exact h.leaves n

theorem sizeWhere_deleteLeaf (p : NodeId) (ck : PyVal) (hx : x ∈ nodes) (hne : x ≠ t.rootNode)
    (q : Int → Bool) : sizeWhere t nodes q = sizeWhere (t.deleteLeaf x p ck) (nodes.erase x) q +
      if q (t.lockRef x) then ((t.key x).len : Int) else 0 := by
  have hroot : (t.deleteLeaf x p ck).rootNode = t.rootNode := by simp [Skeleton.removeChild]
  have hkey : (t.deleteLeaf x p ck).key = t.key := by simp [Skeleton.removeChild]
  have hlock : (t.deleteLeaf x p ck).lockRef = t.lockRef := by simp [deleteLeaf]
  unfold sizeWhere
  rw [hroot, hkey, hlock, erase_right_comm, add_comm,
    add_sum_erase _ (fun n => if q (t.lockRef n) then ((t.key n).len : Int) else 0)
      (mem_erase.mpr ⟨hne, hx⟩)]

theorem Sized.deleteLeaf (h : Sized t nodes)
    (hs : Shape pageSize t.toSkeleton nodes) (hx : IsChild pageSize t.toSkeleton nodes p ck x)
    (hlock : t.lockRef x = 0) : Sized (t.deleteLeaf x p ck) (nodes.erase x) := by
  have hp := hs.mem_of_parent hx.mem hx.ne_root hx.parent
  have hpx : p ≠ x := by
    rintro rfl
    obtain ⟨ns, hns⟩ := hs.wf.spine p hx.mem
    exact hns.parent_not_mem hx.mem hx.ne_root hx.parent (hns.self_mem hx.ne_root)
  have hroot : (t.deleteLeaf x p ck).rootNode = t.rootNode := by simp [Skeleton.removeChild]
  have hlockeq : (t.deleteLeaf x p ck).lockRef = t.lockRef := by simp [Tree.deleteLeaf]
  refine ⟨?_, ?_, ?_, ?_, ?_⟩
  · rw [hroot, hlockeq, h.root_lock]
  · intro n hn
    rw [hlockeq]
    exact h.lock_nonneg n (mem_of_mem_erase hn)
  · have hsize := sizeWhere_deleteLeaf p ck hx.mem hx.ne_root (· == 0)
    rw [← h.evictable, hlock] at hsize
    simp only [beq_self_eq_true, if_true] at hsize
    simp only [Tree.deleteLeaf, Tree.updateLeafStatus_evictableSize] at hsize ⊢
    omega
  · have hsize := sizeWhere_deleteLeaf p ck hx.mem hx.ne_root (0 < ·)
    rw [← h.locked, hlock] at hsize
    simp only [lt_self_iff_false, decide_false, Bool.false_eq_true, if_false, add_zero] at hsize
    simp only [Tree.deleteLeaf, Tree.updateLeafStatus_protectedSize] at hsize ⊢
    exact hsize
  · intro n
    have hchild : ((t.deleteLeaf x p ck).children n).keys =
        ((t.toSkeleton.removeChild p ck).children n).keys := by
      rw [Tree.deleteLeaf_toSkeleton]
    rw [hchild, hroot, hlockeq, Tree.deleteLeaf, Tree.mem_updateLeafStatus]
    by_cases hnp : n = p
    · subst hnp
      rw [if_pos rfl]
      have hnonneg := h.lock_nonneg n hp
      constructor
      · rintro ⟨h1, h2⟩
        have hz : t.lockRef n = 0 := by
          simp only at h1
          omega
        refine ⟨mem_erase.mpr ⟨hpx, hp⟩, ?_, hz, h2⟩
        rintro rfl
        rw [h.root_lock] at hz
        simp at hz
      · rintro ⟨-, -, h1, h2⟩
        exact ⟨by simp only; omega, h2⟩
    · rw [if_neg hnp, Skeleton.removeChild_children_old hnp]
      simp only [mem_erase, h.leaves n]
      tauto

theorem Sized.reset (t : Tree) : Sized t.reset {t.reset.rootNode} := by
  have hsize : ∀ q : Int → Bool, sizeWhere t.reset {t.reset.rootNode} q = 0 := by
    simp [sizeWhere]
  refine ⟨?_, ?_, ?_, ?_, ?_⟩
  · simp [Tree.reset, Skeleton.reset]
  · intro n hn
    rw [mem_singleton.mp hn]
    simp [Tree.reset, Skeleton.reset]
  · exact (hsize _).symm
  · exact (hsize _).symm
  · intro n
    simp only [mem_singleton]
    constructor
    · intro hn
      simp [Tree.reset] at hn
    · rintro ⟨h1, h2, -⟩
      exact absurd h1 h2

section Locked

variable {held : List NodeId}

section

variable (h : Locked t nodes held) (hs : Shape pageSize t.toSkeleton nodes)
include h hs

theorem Locked.splitNode
    (g : SplitGuard pageSize t.toSkeleton nodes child p splitLen headKey tailKey) :
    Locked (t.splitNode child p splitLen headKey tailKey) (insert t.counter nodes) held := by
  have hforest : ((t.splitNode child p splitLen headKey tailKey).trie
      (insert t.counter nodes)).toForest = (t.trie nodes).toForest.split child t.counter := rfl
  have hm := hs.counter_not_mem
  refine ⟨fun x hx => mem_insert_of_mem (h.held_mem x hx), ?_⟩
  intro n hn hne
  rw [hforest]
  rcases mem_insert.mp hn with rfl | hn
  · rw [cover_split_new hs.wf.toRooted h.held_mem g.mem g.ne_root hm,
      ← h.cover child g.mem g.ne_root]
    simp [Tree.splitNode]
  · rw [cover_split_old hs.wf.toRooted h.held_mem g.mem g.ne_root hm hn, ← h.cover n hn hne]
    simp only [Tree.splitNode, update_of_ne (hs.ne_counter hn)]

theorem Locked.addLeaf : Locked (t.addLeaf node key value ck) (insert t.counter nodes) held := by
  have hforest : ((t.addLeaf node key value ck).trie (insert t.counter nodes)).toForest =
      (t.trie nodes).toForest.attach node t.counter := by
    rw [addLeaf_toSkeleton]
    rfl
  have hm := hs.counter_not_mem
  have hlockeq : (t.addLeaf node key value ck).lockRef = update t.lockRef t.counter 0 := by
    simp [Tree.addLeaf]
  refine ⟨fun x hx => mem_insert_of_mem (h.held_mem x hx), ?_⟩
  intro n hn hne
  rw [hforest, hlockeq, cover_attach_old hs.wf.toRooted h.held_mem hm]
  rcases mem_insert.mp hn with rfl | hn
  · rw [update_self, cover_of_not_mem hs.wf.toRooted h.held_mem hm]
    rfl
  · rw [update_of_ne (hs.ne_counter hn)]
    refine h.cover n hn ?_
    rwa [addLeaf_toSkeleton] at hne

theorem Locked.not_held (hx : x ∈ nodes) (hne : x ≠ t.rootNode) (hlock : t.lockRef x = 0) :
    x ∉ held := by
  intro hin
  have hpos := cover_pos_of_mem hs.wf.toRooted hin hx hne
  rw [h.cover x hx hne] at hlock
  omega

theorem Locked.deleteLeaf (hx : IsChild pageSize t.toSkeleton nodes p ck x)
    (hleaf : (t.children x).keys = []) (hlock : t.lockRef x = 0) :
    Locked (t.deleteLeaf x p ck) (nodes.erase x) held := by
  have hnot := h.not_held hs hx.mem hx.ne_root hlock
  have hforest : ((t.deleteLeaf x p ck).trie (nodes.erase x)).toForest =
      (t.trie nodes).toForest.detach x := by
    rw [deleteLeaf_toSkeleton]
    rfl
  have hlockeq : (t.deleteLeaf x p ck).lockRef = t.lockRef := by simp [Tree.deleteLeaf]
  refine ⟨?_, ?_⟩
  · intro y hy
    exact mem_erase.mpr ⟨fun hyx => hnot (hyx ▸ hy), h.held_mem y hy⟩
  intro n hn hne
  rw [hforest, hlockeq, cover_detach hs.wf.toRooted h.held_mem
    ((hs.children_empty_iff hx.mem).mp hleaf) hnot]
  refine h.cover n (mem_of_mem_erase hn) ?_
  rwa [deleteLeaf_toSkeleton] at hne

end

theorem Locked.reset (t : Tree) : Locked t.reset {t.reset.rootNode} [] := by
  refine ⟨by simp, ?_⟩
  intro n hn hne
  exact absurd (mem_singleton.mp hn) hne

theorem Locked.le_parent (h : Locked t nodes held) (hs : Shape pageSize t.toSkeleton nodes)
     (hn : n ∈ nodes) (hne : n ≠ t.rootNode) (hpar : t.parent n = some p)
    (hp : p ≠ t.rootNode) : t.lockRef n ≤ t.lockRef p := by
  rw [h.cover n hn hne, h.cover p (hs.mem_of_parent hn hne hpar) hp]
  exact Int.ofNat_le.mpr (cover_le_parent hpar hp)

end Locked

end

end SparkInfer.Radix
