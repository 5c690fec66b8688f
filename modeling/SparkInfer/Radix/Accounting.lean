import SparkInfer.Radix.Content

/-!
# Locks, sizes and what eviction frees

What admission control relies on, in every state a run can reach: the cached
sizes and leaves are those of the tree, and `evict` frees what was asked for or
everything unlocked.
-/

namespace SparkInfer.Radix

open Lib Finset Sys

variable {H B : Type} [DecidableEq B] {cfg : Config} {hf : HashFns H B}

def AreNodes (s : Skeleton) (nodes : Finset NodeId) : Prop := ∀ n, n ∈ nodes ↔ InTree s n

/-- The bookkeeping of a tree describes the tree. -/
structure Accounted (t : Tree) (nodes : Finset NodeId) : Prop where
  lock_nonneg : ∀ n ∈ nodes, 0 ≤ t.lockRef n
  root_lock : t.lockRef t.rootNode = 1
  lock_le_parent : ∀ n ∈ nodes, ∀ p, t.parent n = some p → p ≠ t.rootNode →
    t.lockRef n ≤ t.lockRef p
  evictable : t.evictableSize = sizeWhere t nodes (· == 0)
  locked : t.protectedSize = sizeWhere t nodes (0 < ·)
  leaves : ∀ n, n ∈ t.evictableLeaves ↔
    n ∈ nodes ∧ n ≠ t.rootNode ∧ t.lockRef n = 0 ∧ (t.children n).keys = []

/-- What `evict` achieves: locked nodes stay, the result counts the indices of the
nodes that went, and it is at least the request or all that was evictable. -/
def EvictProgress (cfg : Config) (hf : HashFns H B) (c : RadixCache H B)
    (nodes : Finset NodeId) (tie : List NodeId → Nat) (numTokens : Nat) : Prop :=
  ∃ c' k nodes', c.evict cfg hf tie numTokens = .ok (c', k) ∧
    AreNodes c'.tree.toSkeleton nodes' ∧ nodes' ⊆ nodes ∧
    (∀ n ∈ nodes, 0 < c.tree.lockRef n → n ∈ nodes') ∧
    k = ∑ n ∈ nodes \ nodes', (c.tree.value n).length ∧
    min (numTokens : Int) c.tree.evictableSize ≤ k

section

variable {s : Sys H B} {c c' : RadixCache H B} {nodes nodes' : Finset NodeId}
variable {held xs : List NodeId}

omit [DecidableEq B] in
theorem Shape.areNodes {pageSize : Nat} {t : Skeleton} (h : Shape pageSize t nodes) :
    AreNodes t nodes :=
  fun _ => h.inTree_iff.symm

omit [DecidableEq B] in
theorem Inv.accounted (h : Inv cfg hf c nodes held) : Accounted c.tree nodes := by
  refine { h.sized with lock_le_parent := ?_ }
  intro n hn p hpar hp
  have hne : n ≠ c.tree.rootNode := by
    rintro rfl
    rw [h.shape.root_parent] at hpar
    cases hpar
  exact h.locked.le_parent h.shape hn hne hpar hp

theorem Deletes.evictable_sub (hd : Deletes cfg hf c nodes c' nodes' xs)
    (h : Inv cfg hf c nodes held) : c.tree.evictableSize - c'.tree.evictableSize =
      ∑ n ∈ nodes \ nodes', ((c.tree.value n).length : Int) := by
  have hframe := hd.frame
  have hsub : nodes' ⊆ nodes := fun n hn => (hd.mem.mp hn).1
  rw [h.sized.evictable, (hd.inv h).sized.evictable]
  unfold sizeWhere
  rw [hframe.rootNode, hframe.lockRef, hframe.key]
  have hdiff : nodes.erase c.tree.rootNode \ nodes'.erase c.tree.rootNode = nodes \ nodes' := by
    ext n
    simp only [mem_sdiff, mem_erase, not_and]
    constructor
    · exact fun hn => ⟨hn.1.2, hn.2 hn.1.1⟩
    rintro ⟨hn, hn'⟩
    have hx : n ∈ xs := by
      by_contra hx
      exact hn' (hd.mem.mpr ⟨hn, hx⟩)
    exact ⟨⟨(hd.deleted_mem hx).2.1, hn⟩, fun _ => hn'⟩
  rw [← sum_sdiff (erase_subset_erase c.tree.rootNode hsub), hdiff, add_sub_cancel_right]
  apply sum_congr rfl
  intro n hn
  obtain ⟨hn, hn'⟩ := mem_sdiff.mp hn
  have hx : n ∈ xs := by
    by_contra hx
    exact hn' (hd.mem.mpr ⟨hn, hx⟩)
  rw [(hd.deleted_mem hx).2.2, h.shape.value_len n hn]
  rfl

theorem SysInv.evictProgress (h : SysInv cfg hf s nodes) (tie : List NodeId → Nat)
    (numTokens : Nat) : EvictProgress cfg hf s.cache nodes tie numTokens := by
  have hrun : ∃ c' nodes' xs k, s.cache.evict cfg hf tie numTokens = .ok (c', k) ∧
      Deletes cfg hf s.cache nodes c' nodes' xs ∧
      k = s.cache.tree.evictableSize - c'.tree.evictableSize ∧
      (numTokens ≤ k ∨ c'.tree.evictableLeaves = ∅) := by
    cases hdis : cfg.disable with
    | false => exact evict_spec h.inv hdis tie numTokens
    | true =>
      refine ⟨s.cache, nodes, [], 0, by simp [RadixCache.evict, hdis], .refl, by simp, .inr ?_⟩
      -- a disabled cache is the root alone
      apply eq_empty_of_forall_notMem
      intro n hn
      obtain ⟨hmem, hne, -⟩ := (h.inv.sized.leaves n).mp hn
      rw [h.disabled hdis] at hmem
      exact hne (mem_singleton.mp hmem)
  obtain ⟨c', nodes', xs, k, hrun, hd, hk, hend⟩ := hrun
  have hinv' := hd.inv h.inv
  refine ⟨c', k, nodes', hrun, hinv'.shape.areNodes, fun n hn => (hd.mem.mp hn).1, ?_, ?_, ?_⟩
  · intro n hn hpos
    refine hd.mem.mpr ⟨hn, fun hx => ?_⟩
    have hzero := (hd.deleted_mem hx).2.2
    omega
  · have hsum := hd.evictable_sub h.inv
    rw [← hk] at hsum
    exact_mod_cast hsum
  rcases hend with hall | hempty
  · exact (min_le_left _ _).trans (by exact_mod_cast hall)
  · rw [hk, hinv'.evictable_zero hempty, sub_zero]
    exact min_le_right _ _

end

/-! ## The root's own count -/

def Sys.lockedTwice : Sys Unit Unit :=
  (filled.after .small .unit (.incLockRef 1)).after .small .unit (.incLockRef 1)

theorem Sys.lockedTwice_reach : Sys.Reach .small .unit lockedTwice := by
  have hin : filled.Legal .small (.incLockRef 1) := @InTree.child _ _ _ (.int 1) .root rfl
  have hin' : (filled.after .small .unit (.incLockRef 1)).Legal .small (.incLockRef 1) :=
    @InTree.child _ _ _ (.int 1) .root rfl
  exact .step (.step filled_reach hin trivial rfl) hin' trivial rfl

end SparkInfer.Radix
