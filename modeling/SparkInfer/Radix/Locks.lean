import SparkInfer.Radix.Accounts

/-!
# Lock walks

`inc_lock_ref` and `dec_lock_ref` climb from a node to the root.  Each visits
exactly the nodes on the node's spine, once, so the lock counts stay the cover
counts of the locks that are held.
-/

namespace SparkInfer.Radix

open Lib List Finset

variable {H B : Type} {cfg : Config}
variable {pageSize : Nat} {t : Tree} {nodes : Finset NodeId} {held : List NodeId}
variable {n : NodeId} {ns : List NodeId} {t' : Tree}

theorem Shape.spine_length (h : Shape pageSize t.toSkeleton nodes)
     (hns : (t.trie nodes).Spine n ns) : ns.length < t.counter + 1 := by
  have hsub : ns.toFinset ⊆ range t.counter := by
    intro x hx
    exact Finset.mem_range.mpr (h.fresh x (hns.mem (mem_toFinset.mp hx)).1)
  have hcard := card_le_card hsub
  rw [toFinset_card_of_nodup hns.nodup, card_range] at hcard
  omega

theorem Sized.congr_nodes (hskel : t'.toSkeleton = t.toSkeleton)
     (hns : (t.trie nodes).Spine n ns) : (t'.trie nodes).Spine n ns := by
  rwa [hskel]

/-- What a walk over the spine `ns` has done: `d` more locks on each of its nodes. -/
structure Walked (nodes : Finset NodeId) (ns : List NodeId) (d : Int) (t : Tree) (delta : Int)
    (r : Tree × Int) : Prop where
  skel : r.1.toSkeleton = t.toSkeleton
  sized : Sized r.1 nodes
  lock : ∀ x, r.1.lockRef x = t.lockRef x + if x ∈ ns then d else 0
  delta : r.2 - delta = r.1.evictableSize - t.evictableSize

theorem Walked.root {d delta : Int} (h : Sized t nodes) (hns : (t.trie nodes).Spine t.rootNode ns) :
    Walked nodes ns d t delta (t, delta) := by
  refine ⟨rfl, h, fun x => ?_, by simp⟩
  rw [hns.root_eq]
  simp

theorem Walked.step {d delta delta' : Int} {r : Tree × Int} (h : Walked nodes ns d t' delta' r)
    (hn : n ∉ ns) (hskel : t'.toSkeleton = t.toSkeleton)
    (hlock : t'.lockRef = Function.update t.lockRef n (t.lockRef n + d))
    (hdelta : delta' - delta = t'.evictableSize - t.evictableSize) :
    Walked nodes (ns ++ [n]) d t delta r := by
  refine ⟨h.skel.trans hskel, h.sized, fun x => ?_, by have := h.delta; omega⟩
  rw [h.lock x, hlock]
  by_cases hxn : x = n
  · subst hxn
    simp [hn]
  · simp [hxn]

theorem incLockLoop_spec (fuel : Nat) (delta : Int) (h : Sized t nodes)
    (hns : (t.trie nodes).Spine n ns) (hfuel : ns.length < fuel) :
    ∃ r, RadixCache.incLockLoop fuel t n delta = .ok r ∧ Walked nodes ns 1 t delta r := by
  induction fuel generalizing n ns t delta with
  | zero => omega
  | succ fuel ih =>
    rw [RadixCache.incLockLoop]
    by_cases hroot : n = t.rootNode
    · subst hroot
      exact ⟨_, if_pos rfl, .root h hns⟩
    obtain ⟨p, ps, hmem, hpar, hps, rfl⟩ := hns.parent hroot
    rw [if_neg hroot, show t.parent n = some p from hpar]
    rw [length_append, length_singleton] at hfuel
    have hskel := t.incLock_toSkeleton n
    obtain ⟨r, hrun, hr⟩ := ih (if t.lockRef n = 0 then delta - (t.key n).len else delta)
      (h.incLock hmem hroot) (Sized.congr_nodes hskel hps) (by omega)
    refine ⟨r, hrun, hr.step (hps.parent_not_mem hmem hroot hpar) hskel (incLock_lockRef t n) ?_⟩
    simp only [Tree.incLock]
    split_ifs <;> simp

theorem decLockLoop_spec (fuel : Nat) (delta : Int) (h : Sized t nodes)
    (hns : (t.trie nodes).Spine n ns) (hfuel : ns.length < fuel) (hpos : ∀ x ∈ ns, 0 < t.lockRef x) :
    ∃ r, RadixCache.decLockLoop fuel t n delta = .ok r ∧ Walked nodes ns (-1) t delta r := by
  induction fuel generalizing n ns t delta with
  | zero => omega
  | succ fuel ih =>
    rw [RadixCache.decLockLoop]
    by_cases hroot : n = t.rootNode
    · subst hroot
      exact ⟨_, if_pos rfl, .root h hns⟩
    obtain ⟨p, ps, hmem, hpar, hps, rfl⟩ := hns.parent hroot
    rw [if_neg hroot, show t.parent n = some p from hpar]
    rw [length_append, length_singleton] at hfuel
    have hskel := t.decLock_toSkeleton n
    have hnot := hps.parent_not_mem hmem hroot hpar
    have hpos' : ∀ x ∈ ps, 0 < (t.decLock n).lockRef x := by
      intro x hx
      have hxn : x ≠ n := fun hxn => hnot (hxn ▸ hx)
      rw [decLock_lockRef, Function.update_of_ne hxn]
      exact hpos x (by simp [hx])
    obtain ⟨r, hrun, hr⟩ := ih (if t.lockRef n = 1 then delta + (t.key n).len else delta)
      (h.decLock hmem hroot (hpos n (by simp))) (Sized.congr_nodes hskel hps) (by omega) hpos'
    refine ⟨r, hrun, hr.step hnot hskel (decLock_lockRef t n) ?_⟩
    simp only [Tree.decLock]
    split_ifs <;> simp

variable (h : Locked t nodes held)
include h

theorem Locked.inc
    (hn : n ∈ nodes) (hns : (t.trie nodes).Spine n ns) (hskel : t'.toSkeleton = t.toSkeleton)
    (hlock : ∀ x, t'.lockRef x = t.lockRef x + if x ∈ ns then 1 else 0) :
    Locked t' nodes (n :: held) := by
  refine ⟨?_, ?_⟩
  · intro x hx
    rcases mem_cons.mp hx with rfl | hx
    · exact hn
    · exact h.held_mem x hx
  intro x hx hne
  rw [hskel] at hne ⊢
  rw [hlock x, h.cover x hx hne, Forest.cover_cons, hns.covers_iff]
  push_cast
  rfl

theorem Locked.pos_of_held {x : NodeId}
    (hn : n ∈ held) (hns : (t.trie nodes).Spine n ns) (hx : x ∈ ns) : 0 < t.lockRef x := by
  obtain ⟨hmem, hne⟩ := hns.mem hx
  have hcov := hns.covers_iff.mpr hx
  have herase := Forest.cover_erase (f := (t.trie nodes).toForest) (n := x) hn
  rw [if_pos hcov] at herase
  rw [h.cover x hmem hne]
  omega

theorem Locked.dec
    (hn : n ∈ held) (hns : (t.trie nodes).Spine n ns) (hskel : t'.toSkeleton = t.toSkeleton)
    (hlock : ∀ x, t'.lockRef x = t.lockRef x + if x ∈ ns then -1 else 0) :
    Locked t' nodes (held.erase n) := by
  refine ⟨fun x hx => h.held_mem x (mem_of_mem_erase hx), ?_⟩
  intro x hx hne
  rw [hskel] at hne ⊢
  rw [hlock x, h.cover x hx hne, Forest.cover_erase hn, hns.covers_iff]
  split_ifs <;> omega

end SparkInfer.Radix
