import SparkInfer.Radix.System

/-!
# What the edits do to the content of the tree

The content of the tree is the set of entries of its trie.  An insertion adds the
cuts of one path; an eviction drops the cuts that end inside the deleted nodes.
-/

namespace SparkInfer.Radix

open Lib Lib.CommonPrefix List Trie

variable {H B : Type} {cfg : Config} {hf : HashFns H B}
variable {nodes nodes' : Finset NodeId} {e : List (Atom × Int)} {n x : NodeId}
variable {c c' : RadixCache H B}

theorem Shape.entry_root {pageSize : Nat} {s : Skeleton} (h : Shape pageSize s nodes)
    (hnodes : nodes = {s.rootNode}) : (s.trie nodes).Entry pageSize e ↔ e = [] := by
  constructor
  · rintro ⟨n, l, c, hl, -, rfl⟩
    have hmem := h.wf.mem_of_path hl
    rw [hnodes] at hmem
    rw [mem_singleton.mp hmem] at hl
    rw [hl.unique (path_root _), take_nil]
  · rintro rfl
    exact entry_of_path h.wf (path_root _)

section Insert

variable [DecidableEq B]
variable {w : List Atom} {value : List Int} {last : NodeId} {l : List (Atom × Int)}

/-- The word the inserted key spells: the old entries first, then the new ones. -/
def insertedWord (w : List Atom) (value : List Int) (l : List (Atom × Int)) : List (Atom × Int) :=
  l ++ (w.drop l.length).zip (value.drop l.length)

section

variable (hval : value.length = w.length)
include hval

theorem length_insertedWord (hle : l.length ≤ w.length) :
    (insertedWord w value l).length = w.length := by
  simp [insertedWord]
  omega

theorem keys_insertedWord (hkey : Trie.keys l = w.take l.length) :
    Trie.keys (insertedWord w value l) = w := by
  rw [insertedWord, Trie.keys, map_append, map_fst_zip (by simp [hval])]
  change Trie.keys l ++ w.drop l.length = w
  rw [hkey, take_append_drop]

theorem vals_insertedWord :
    (insertedWord w value l).map Prod.snd = l.map Prod.snd ++ value.drop l.length := by
  rw [insertedWord, map_append, map_snd_zip (by simp [hval])]

end

theorem InsertEnd.entry (he : InsertEnd cfg hf c nodes w value n l c' nodes' last)
    (h : Shape cfg.pageSize c.tree.toSkeleton nodes) (hl : (c.tree.trie nodes).Path n l) :
    (c'.tree.trie nodes').Entry cfg.pageSize e ↔ (c.tree.trie nodes).Entry cfg.pageSize e ∨
      ∃ d, cfg.pageSize ∣ d ∧ l.length < d ∧ d ≤ w.length ∧ e = (insertedWord w value l).take d := by
  cases he with
  | found hlen =>
    constructor
    · exact .inl
    · rintro (he | ⟨d, -, hlt, hle, -⟩)
      · exact he
      · omega
  | @added _ key ck hlen hkey guard hadd =>
    have hlab : (key.tagged.zip (value.drop l.length)).length = key.len := by
      rw [length_zip, RadixKey.length_tagged, guard.value_len, min_self]
    have hstuck := h.stuck_of_lookup cfg.pageSize_pos guard.mem
      (Nat.le_of_dvd guard.pos guard.dvd) guard.childKey guard.lookup
    have hkeys : Trie.keys (key.tagged.zip (value.drop l.length)) = key.tagged := by
      rw [Trie.keys, map_fst_zip]
      rw [RadixKey.length_tagged, guard.value_len]
    have hattach := entry_attach (e := e) h.wf guard.mem h.counter_not_mem
      (hlab.symm ▸ guard.dvd) (ne_nil_of_length_pos (hlab.symm ▸ guard.pos))
      (by rw [hkeys]; exact hstuck) hl
    rw [← Skeleton.trie_addLeaf, hkey] at hattach
    rw [hadd.tree, Tree.addLeaf_toSkeleton]
    refine hattach.trans ⟨?_, ?_⟩
    · rintro (he | ⟨d, hd, rfl⟩)
      · exact .inl he
      -- a cut within the old part, or past the end, is not new
      · have hwlen : (insertedWord w value l).length = w.length := by
          have hvalue := guard.value_len
          have hklen := congrArg length hkey
          simp only [RadixKey.length_tagged, length_drop] at hvalue hklen
          simp only [insertedWord, length_append, length_zip, length_drop]
          omega
        by_cases hdl : d ≤ l.length
        · left
          rw [take_append_of_le_length hdl]
          exact (entry_of_path h.wf hl).take hd
        right
        refine ⟨min d w.length, ?_, by omega, by omega, ?_⟩
        · rcases le_total d w.length with hdw | hdw
          · rwa [min_eq_left hdw]
          rw [min_eq_right hdw]
          have hsum : w.length = l.length + key.len := by
            have hklen := congrArg length hkey
            simp only [RadixKey.length_tagged, length_drop] at hklen
            omega
          rw [hsum]
          exact dvd_add (h.wf.dvd_path hl) guard.dvd
        · conv_rhs => rw [← hwlen, ← take_take, take_length]
          rfl
    · rintro (he | ⟨d, hd, -, -, rfl⟩)
      · exact .inl he
      · exact .inr ⟨d, hd, rfl⟩

end Insert

section Evict

variable {xs : List NodeId}

variable [DecidableEq B]

structure Frame (t t' : Tree) : Prop where
  rootNode : t'.rootNode = t.rootNode
  key : t'.key = t.key
  value : t'.value = t.value
  parent : t'.parent = t.parent
  lockRef : t'.lockRef = t.lockRef

theorem Deletes.frame (hd : Deletes cfg hf c nodes c' nodes' xs) : Frame c.tree c'.tree := by
  induction hd with
  | refl => exact ⟨rfl, rfl, rfl, rfl, rfl⟩
  | @delete c₁ nodes₁ _ x p ck lp _ guard ih =>
    have hskel := c₁.deleted_toSkeleton cfg hf x p ck lp
    have hlock : (c₁.deleted cfg hf x p ck lp).tree.lockRef = c₁.tree.lockRef := by
      simp [RadixCache.deleted, Tree.deleteLeaf]
    refine ⟨?_, ?_, ?_, ?_, hlock.trans ih.lockRef⟩
    · rw [hskel]
      exact ih.rootNode
    · rw [hskel]
      exact ih.key
    · rw [hskel]
      exact ih.value
    · rw [hskel]
      exact ih.parent

theorem Frame.trie {t t' : Tree} (h : Frame t t') (nodes : Finset NodeId) :
    t'.trie nodes = t.trie nodes := by
  unfold Skeleton.trie Skeleton.label
  rw [h.rootNode, h.key, h.value, h.parent]

section

variable (hd : Deletes cfg hf c nodes c' nodes' xs)
include hd

theorem Deletes.mem : n ∈ nodes' ↔ n ∈ nodes ∧ n ∉ xs := by
  induction hd with
  | refl => simp
  | delete _ _ ih =>
    rw [Finset.mem_erase, mem_append, mem_singleton]
    tauto

theorem Deletes.deleted_mem (hx : x ∈ xs) :
    x ∈ nodes ∧ x ≠ c.tree.rootNode ∧ c.tree.lockRef x = 0 := by
  induction hd with
  | refl => simp at hx
  | delete hd guard ih =>
    rcases mem_append.mp hx with hx | hx
    · exact ih hx
    rw [mem_singleton.mp hx]
    have hunlocked := guard.unlocked
    have hroot := guard.child.ne_root
    rw [hd.frame.lockRef] at hunlocked
    rw [hd.frame.rootNode] at hroot
    exact ⟨(hd.mem.mp guard.child.mem).1, hroot, hunlocked⟩

theorem Deletes.shape (h : Shape cfg.pageSize c.tree.toSkeleton nodes) :
    Shape cfg.pageSize c'.tree.toSkeleton nodes' := by
  induction hd with
  | refl => exact h
  | @delete c₁ nodes₁ _ x p ck lp _ guard ih =>
    have hskel := c₁.deleted_toSkeleton cfg hf x p ck lp
    rw [hskel]
    exact ih.removeChild guard.child guard.leaf

end

/-- The entry ends inside the label of `x`, whose parent has the path `lp`. -/
def EndsIn (t : Trie NodeId (Atom × Int)) (x : NodeId) (lp e : List (Atom × Int)) : Prop :=
  ∃ k, 0 < k ∧ k ≤ (t.label x).length ∧ e = lp ++ (t.label x).take k

theorem DeleteGuard.entry {p : NodeId} {ck : PyVal} {lp : List (Atom × Int)}
    (g : DeleteGuard cfg.pageSize c.tree nodes x p ck lp)
    (h : Shape cfg.pageSize c.tree.toSkeleton nodes) :
    ((c.deleted cfg hf x p ck lp).tree.trie (nodes.erase x)).Entry cfg.pageSize e ↔
      (c.tree.trie nodes).Entry cfg.pageSize e ∧ ¬ EndsIn (c.tree.trie nodes) x lp e := by
  have hskel := c.deleted_toSkeleton cfg hf x p ck lp
  have hleaf := (h.children_empty_iff g.child.mem).mp g.leaf
  have hpath := g.path.child g.child.mem g.child.ne_root g.child.parent
  rw [hskel, Skeleton.trie_removeChild, entry_detach h.wf g.child.mem g.child.ne_root hleaf hpath]
  refine and_congr_right fun _ => ⟨?_, ?_⟩
  · rintro hno ⟨k, hk, hle, rfl⟩
    exact hno k hk (by simp [min_eq_left hle]) rfl
  intro hno k hk hlen heq
  refine hno ⟨k, hk, ?_, heq⟩
  rw [heq, length_append, length_take] at hlen
  omega

/-- Evictions drop exactly the entries that end inside a deleted node. -/
theorem Deletes.entry (hd : Deletes cfg hf c nodes c' nodes' xs)
    (h : Shape cfg.pageSize c.tree.toSkeleton nodes) :
    (c'.tree.trie nodes').Entry cfg.pageSize e ↔ (c.tree.trie nodes).Entry cfg.pageSize e ∧
        ∀ x ∈ xs, ∀ p lp, c.tree.parent x = some p → (c.tree.trie nodes).Path p lp →
          ¬ EndsIn (c.tree.trie nodes) x lp e := by
  induction hd with
  | refl => simp
  | @delete c₁ nodes₁ ys x p ck lp hd guard ih =>
    have hshape := hd.shape h
    have hlabel : (c₁.tree.trie nodes₁).label = (c.tree.trie nodes).label := by
      rw [hd.frame.trie]
      rfl
    have hpar : c.tree.parent x = some p := hd.frame.parent ▸ guard.child.parent
    -- the path of the parent is the one it had at the start
    have hpath : (c.tree.trie nodes).Path p lp := by
      obtain ⟨ns, hns, rfl⟩ := guard.path
      rw [hd.frame.trie] at hns ⊢
      refine ⟨ns, ?_, rfl⟩
      have hmono : ∀ {n : NodeId} {ns : List NodeId}, (c.tree.trie nodes₁).Spine n ns →
          (c.tree.trie nodes).Spine n ns := by
        intro n ns hns
        induction hns with
        | root => exact .root
        | snoc hmem hne hpar _ ih => exact .snoc (hd.mem.mp hmem).1 hne hpar ih
      exact hmono hns
    have hends : EndsIn (c₁.tree.trie nodes₁) x lp e ↔ EndsIn (c.tree.trie nodes) x lp e := by
      unfold EndsIn
      rw [hlabel]
    rw [guard.entry hshape, ih, hends, and_assoc]
    refine and_congr_right fun _ => ⟨?_, ?_⟩
    · rintro ⟨hys, hx⟩ y hy q lq hq hlq
      rcases mem_append.mp hy with hy | hy
      · exact hys y hy q lq hq hlq
      rw [mem_singleton.mp hy] at hq ⊢
      rw [hpar] at hq
      cases hq
      rwa [hlq.unique hpath]
    · intro hall
      exact ⟨fun y hy => hall y (mem_append_left _ hy), hall x (by simp) p lp hpar hpath⟩

end Evict

end SparkInfer.Radix
