import SparkInfer.Radix.Content
import SparkInfer.Radix.Requests

/-!
# Pages in the tree

What the edits of the tree do to the pages it holds: a split only cuts a value at
a page boundary, a new leaf brings its pages along, and an eviction moves the
pages of the deleted node to the allocator.
-/

namespace SparkInfer.Radix

open Lib Alloc Alloc.Paged Finset Skeleton List

variable {H B : Type} {cfg : Config} {hf : HashFns H B}
variable {a : Paged} {p x y n : NodeId} {ly l : List (Atom × Int)}

def treePages (pageSize : Nat) (s : Skeleton) (nodes : Finset NodeId) : Multiset Int :=
  ∑ n ∈ nodes, (pagesOf pageSize (s.value n) : Multiset Int)

structure Holds (cfg : Config) (c : RadixCache H B) (nodes : Finset NodeId) (numPages : Nat)
    (P : Multiset Int) : Prop where
  pageSize : c.allocator.pageSize = cfg.pageSize
  numPages : c.allocator.numPages = numPages
  sane : c.allocator.Sane
  exact : ∀ n ∈ nodes, Exact cfg.pageSize (c.tree.value n)
  pages : c.allocator.pages + treePages cfg.pageSize c.tree.toSkeleton nodes = P

section Edits

variable {c c' : RadixCache H B} {nodes nodes' : Finset NodeId} {N : Nat} {P : Multiset Int}

section

variable (h : Holds cfg c nodes N P)
include h

theorem Holds.of_skeleton {t : Tree}
    (hskel : t.toSkeleton = c.tree.toSkeleton) : Holds cfg { c with tree := t } nodes N P := by
  refine { h with exact := ?_, pages := ?_ }
  · rw [hskel]
    exact h.exact
  · rw [hskel]
    exact h.pages

theorem Holds.gains {ids : Multiset Int}
    (hgain : Gains c.allocator a ids) : Holds cfg { c with allocator := a } nodes N (P + ids) := by
  refine ⟨hgain.pageSize.trans h.pageSize, hgain.numPages.trans h.numPages, hgain.sane h.sane,
    h.exact, ?_⟩
  rw [hgain.pages, ← h.pages]
  abel

theorem Holds.loses {ids : List Int} (hloss : Loses c.allocator a ids) :
    ∃ Q, P = Q + (ids : Multiset Int) ∧ Holds cfg { c with allocator := a } nodes N Q := by
  refine ⟨a.pages + treePages cfg.pageSize c.tree.toSkeleton nodes, ?_,
    hloss.pageSize.trans h.pageSize, hloss.numPages.trans h.numPages, hloss.sane h.sane,
    h.exact, rfl⟩
  rw [← h.pages, hloss.pages]
  abel

end

theorem treePages_split {s : Skeleton} {child : NodeId} {splitLen : Nat} {headKey tailKey : PyVal}
    (hs : Shape cfg.pageSize s nodes)
    (g : SplitGuard cfg.pageSize s nodes child p splitLen headKey tailKey) :
    treePages cfg.pageSize (s.splitNode child p splitLen headKey tailKey)
      (insert s.counter nodes) = treePages cfg.pageSize s nodes := by
  have hfresh := hs.counter_not_mem
  have hrest : ∀ n ∈ nodes.erase child,
      (pagesOf cfg.pageSize ((s.splitNode child p splitLen headKey tailKey).value n) :
        Multiset Int) = pagesOf cfg.pageSize (s.value n) := by
    intro n hn
    obtain ⟨hne, hmem⟩ := mem_erase.mp hn
    rw [splitNode_value_old (hs.ne_counter hmem) hne]
  rw [treePages, treePages, sum_insert hfresh, ← add_sum_erase _ _ g.mem,
    ← add_sum_erase _ _ g.mem, sum_congr rfl hrest, ← add_assoc,
    splitNode_value_new (hs.ne_counter g.mem), splitNode_value_child,
    Multiset.coe_add, ← pagesOf_cut cfg.pageSize_pos _ g.dvd]

theorem Splits.holds (hsplits : Splits cfg c nodes c' nodes')
    (hs : Shape cfg.pageSize c.tree.toSkeleton nodes) (h : Holds cfg c nodes N P) :
    Holds cfg c' nodes' N P := by
  induction hsplits with
  | refl => exact h
  | stats _ _ ih => exact { ih with }
  | @split c₁ nodes₁ child p splitLen headKey tailKey hprev guard ih =>
    have hs₁ := hprev.shape hs
    have hskel : (c₁.applySplit cfg child p splitLen headKey tailKey).tree.toSkeleton =
        c₁.tree.toSkeleton.splitNode child p splitLen headKey tailKey :=
      rfl
    refine { ih with exact := ?_, pages := ?_ }
    · intro n hn
      rw [hskel]
      have hchild := ih.exact child guard.mem
      rcases mem_insert.mp hn with rfl | hn
      · rw [splitNode_value_new (hs₁.ne_counter guard.mem)]
        exact hchild.take cfg.pageSize_pos _
      by_cases hnc : n = child
      · rw [hnc, splitNode_value_child]
        exact hchild.drop cfg.pageSize_pos guard.dvd
      · rw [splitNode_value_old (hs₁.ne_counter hn) hnc]
        exact ih.exact n hn
    · rw [hskel, treePages_split hs₁ guard]
      exact ih.pages

section Insert

variable [DecidableEq B] {w : List Atom} {value : List Int} {last : NodeId}
theorem InsertEnd.holds (he : InsertEnd cfg hf c nodes w value n l c' nodes' last)
    (hs : Shape cfg.pageSize c.tree.toSkeleton nodes) (h : Holds cfg c nodes N P)
    (hval : value.length = w.length) (hexact : Exact cfg.pageSize (value.drop l.length)) :
    Holds cfg c' nodes' N (P + (pagesOf cfg.pageSize (value.drop l.length) : Multiset Int)) := by
  cases he with
  | found hlen =>
    rw [drop_of_length_le (by omega), pagesOf]
    simpa using h
  | @added _ key ck hlen hkey guard hadd =>
    have hskel : c'.tree.toSkeleton = c.tree.toSkeleton.addLeaf n key (value.drop l.length) ck := by
      rw [hadd.tree, Tree.addLeaf_toSkeleton]
    have hold : ∀ x ∈ nodes, c'.tree.value x = c.tree.value x := by
      intro x hx
      rw [hskel]
      exact addLeaf_value_old (hs.ne_counter hx)
    have hnew : c'.tree.value c.tree.counter = value.drop l.length := by
      rw [hskel]
      exact addLeaf_value_new
    refine ⟨?_, ?_, ?_, ?_, ?_⟩
    · rw [hadd.allocator]
      exact h.pageSize
    · rw [hadd.allocator]
      exact h.numPages
    · rw [hadd.allocator]
      exact h.sane
    · intro x hx
      rcases mem_insert.mp hx with rfl | hx
      · rwa [hnew]
      · rw [hold x hx]
        exact h.exact x hx
    · have hsum : ∑ x ∈ nodes, (pagesOf cfg.pageSize (c'.tree.value x) : Multiset Int) =
          ∑ x ∈ nodes, (pagesOf cfg.pageSize (c.tree.value x) : Multiset Int) :=
        sum_congr rfl fun x hx => by rw [hold x hx]
      rw [treePages, sum_insert hs.counter_not_mem, hnew, hsum, hadd.allocator, ← h.pages]
      abel

theorem InsertEnd.path (he : InsertEnd cfg hf c nodes w value n l c' nodes' last)
    (hs : Shape cfg.pageSize c.tree.toSkeleton nodes) {lx : List (Atom × Int)}
    (hx : (c.tree.trie nodes).Path x lx) : (c'.tree.trie nodes').Path x lx := by
  cases he with
  | found => exact hx
  | added _ _ guard hadd =>
    rw [hadd.tree, Tree.addLeaf_toSkeleton, trie_addLeaf]
    exact hx.attach hs.counter_not_mem

end Insert

section Evict

variable [DecidableEq B] {xs : List NodeId}

theorem Deletes.holds (hd : Deletes cfg hf c nodes c' nodes' xs) (h : Holds cfg c nodes N P) :
    Holds cfg c' nodes' N P := by
  induction hd with
  | refl => exact h
  | @delete c₁ nodes₁ _ x p ck lp hprev guard ih =>
    have hvalue : (c₁.deleted cfg hf x p ck lp).tree.value = c₁.tree.value := by
      rw [show (c₁.deleted cfg hf x p ck lp).tree.toSkeleton =
        c₁.tree.toSkeleton.removeChild p ck from Tree.deleteLeaf_toSkeleton _ _ _ _]
      rfl
    have hgain : Gains c₁.allocator (c₁.deleted cfg hf x p ck lp).allocator
        (pagesOf cfg.pageSize (c₁.tree.value x) : Multiset Int) := by
      rw [← ih.pageSize]
      exact gains_freeSegment _ _ (dvd_zero _)
    refine ⟨hgain.pageSize.trans ih.pageSize, hgain.numPages.trans ih.numPages,
      hgain.sane ih.sane, ?_, ?_⟩
    · intro n hn
      rw [hvalue]
      exact ih.exact n (mem_of_mem_erase hn)
    rw [hgain.pages, treePages, hvalue, add_assoc,
      add_sum_erase _ (fun n => (pagesOf cfg.pageSize (c₁.tree.value n) : Multiset Int))
        guard.child.mem]
    exact ih.pages

theorem DeleteGuard.path_other {ck : PyVal} {lp : List (Atom × Int)}
    (g : DeleteGuard cfg.pageSize c.tree nodes x p ck lp)
    (hs : Shape cfg.pageSize c.tree.toSkeleton nodes) (hy : (c.tree.trie nodes).Path y ly)
    (hne : y ≠ x) : ((c.deleted cfg hf x p ck lp).tree.trie (nodes.erase x)).Path y ly := by
  have hskel := c.deleted_toSkeleton cfg hf x p ck lp
  rw [hskel]
  exact hy.detach ((hs.children_empty_iff g.child.mem).mp g.leaf) hne

theorem Deletes.path (hd : Deletes cfg hf c nodes c' nodes' xs)
    (hs : Shape cfg.pageSize c.tree.toSkeleton nodes) (hy : (c.tree.trie nodes).Path y ly)
    (hmem : y ∈ nodes') : (c'.tree.trie nodes').Path y ly := by
  induction hd with
  | refl => exact hy
  | delete hprev guard ih =>
    obtain ⟨hne, hmem⟩ := mem_erase.mp hmem
    exact guard.path_other (hprev.shape hs) (ih hmem) hne

end Evict

theorem Holds.exact_path (h : Holds cfg c nodes N P)
    (hs : Shape cfg.pageSize c.tree.toSkeleton nodes) (hl : (c.tree.trie nodes).Path n l) :
    Exact cfg.pageSize (l.map Prod.snd) := by
  obtain ⟨ns, hspine, rfl⟩ := hl
  induction hspine with
  | root => exact .nil
  | @snoc n p ns hmem hne hpar hspine ih =>
    rw [Trie.word_append, Trie.word_cons, Trie.word_nil, append_nil, map_append]
    refine ih.append cfg.pageSize_pos ?_ ?_
    · rw [length_map]
      exact hs.wf.dvd_word hspine
    · change Exact cfg.pageSize ((c.tree.toSkeleton.label n).map Prod.snd)
      rw [hs.vals_label hmem]
      exact h.exact n hmem

end Edits

end SparkInfer.Radix
