import SparkInfer.Lib.Forest
import Mathlib.Data.Finset.Card
import Mathlib.Data.Finset.Sort

/-!
# The node arena of the unified tree

`UnifiedTreeCore` keeps the nodes of one radix tree in `_node_arena`.  What the
session, lock and eviction code reads of a node's place is its `parent`, its
`children` and `len(node.key)`; the keys themselves matter only to the walk down
the tree, which is that of `SparkInfer.Radix`, so a node keeps the length of its
key.  Every other field lives with the code that uses it.
-/

namespace SparkInfer.Unified

open Lib List Finset Function

abbrev NodeId := Nat

/-- The components a tree can have, in the order of `ComponentType`. -/
inductive ComponentType
  | full | swa | mamba
  deriving DecidableEq, Repr

theorem fullSwa_nodup : [ComponentType.full, .swa].Nodup := by decide

theorem fullSwaMamba_nodup : [ComponentType.full, .swa, .mamba].Nodup := by decide

structure Tree where
  counter : Nat
  rootNode : NodeId
  arena : Finset NodeId
  parent : NodeId → Option NodeId
  children : NodeId → Finset NodeId
  keyLen : NodeId → Nat

namespace Tree

def fresh (counter : Nat) : Tree where
  counter := counter + 1
  rootNode := counter
  arena := {counter}
  parent := fun _ => none
  children := fun _ => ∅
  keyLen := fun _ => 0

/-- The links of `_split_node`: the new node `t.counter` takes the first
`splitLen` units of `child` and its place below the parent. -/
def splitNode (t : Tree) (child : NodeId) (splitLen : Nat) : Tree :=
  let newNode := t.counter
  let children := update t.children newNode {child}
  { t with
    counter := t.counter + 1
    arena := insert newNode t.arena
    parent := update (update t.parent newNode (t.parent child)) child
      (some newNode)
    children := match t.parent child with
      | some p => update children p (insert newNode ((children p).erase child))
      | none => children
    keyLen := update (update t.keyLen newNode splitLen) child
      (t.keyLen child - splitLen) }

/-- The links of `_add_new_node` and of `insert_host`. -/
def addNode (t : Tree) (parent : NodeId) (keyLen : Nat) : Tree :=
  let newNode := t.counter
  let children := update t.children newNode ∅
  { t with
    counter := t.counter + 1
    arena := insert newNode t.arena
    parent := update t.parent newNode (some parent)
    children := update children parent (insert newNode (children parent))
    keyLen := update t.keyLen newNode keyLen }

/-- The links of `_remove_leaf_from_parent`; the node keeps its parent pointer. -/
def removeNode (t : Tree) (node : NodeId) : Tree :=
  { t with
    arena := t.arena.erase node
    children := match t.parent node with
      | some p => update t.children p ((t.children p).erase node)
      | none => t.children }

/-- The nodes a loop `while node is not root: ..; node = node.parent` visits. -/
def climbFrom (t : Tree) : Nat → NodeId → List NodeId
  | 0, _ => []
  | fuel + 1, n =>
    if n = t.rootNode then []
    else n :: match t.parent n with
      | some p => t.climbFrom fuel p
      | none => []

def climb (t : Tree) (n : NodeId) : List NodeId := t.climbFrom t.counter n

def forest (t : Tree) : Forest NodeId where
  root := t.rootNode
  nodes := t.arena
  parent := t.parent

structure WF (t : Tree) : Prop where
  rooted : t.forest.Rooted
  fresh : ∀ n ∈ t.arena, n < t.counter
  links : ∀ p ∈ t.arena, ∀ c, c ∈ t.children p ↔ c ∈ t.arena ∧ c ≠ t.rootNode ∧ t.parent c = some p
  keyLen_pos : ∀ n ∈ t.arena, n ≠ t.rootNode → 0 < t.keyLen n

/-! ## Climbing -/

variable {t : Tree} {n m p c child x : NodeId} {ns : List NodeId} {xs : List NodeId}

theorem climbFrom_spine {fuel : Nat} (h : t.forest.Spine n ns) (hfuel : ns.length < fuel) :
    t.climbFrom fuel n = ns.reverse := by
  induction h generalizing fuel with
  | root =>
    obtain ⟨k, rfl⟩ : ∃ k, fuel = k + 1 := ⟨fuel - 1, by omega⟩
    rw [climbFrom, if_pos (show t.forest.root = t.rootNode from rfl)]
    rfl
  | @snoc n p ns hmem hne hpar hspine ih =>
    rw [length_append, length_singleton] at hfuel
    obtain ⟨k, rfl⟩ : ∃ k, fuel = k + 1 := ⟨fuel - 1, by omega⟩
    have hpar' : t.parent n = some p := hpar
    have hne' : n ≠ t.rootNode := hne
    rw [climbFrom, if_neg hne', hpar', reverse_append]
    simp only [reverse_singleton, singleton_append]
    rw [ih (by omega)]

namespace WF

variable (h : t.WF)
include h

theorem root_mem : t.rootNode ∈ t.arena := h.rooted.root_mem

theorem counter_not_mem : t.counter ∉ t.arena :=
  fun hmem => absurd (h.fresh _ hmem) (lt_irrefl _)

theorem ne_counter (hn : n ∈ t.arena) : n ≠ t.counter := (h.fresh n hn).ne

theorem spine_length (hns : t.forest.Spine n ns) : ns.length < t.counter := by
  -- the root is one of the numbered nodes and lies on no spine
  have hsub : insert t.rootNode ns.toFinset ⊆ range t.counter := by
    intro x hx
    rw [Finset.mem_range]
    rcases mem_insert.mp hx with rfl | hx
    · exact h.fresh _ h.root_mem
    · exact h.fresh x (hns.mem (mem_toFinset.mp hx)).1
  have hroot : t.rootNode ∉ ns.toFinset := fun hx => (hns.mem (mem_toFinset.mp hx)).2 rfl
  have hcard := card_le_card hsub
  rw [card_insert_of_notMem hroot, toFinset_card_of_nodup hns.nodup, card_range] at hcard
  omega

theorem climb_eq (hns : t.forest.Spine n ns) : t.climb n = ns.reverse :=
  climbFrom_spine hns (h.spine_length hns)

variable (hn : n ∈ t.arena)
include hn

theorem exists_spine : ∃ ns, t.forest.Spine n ns ∧ t.climb n = ns.reverse := by
  obtain ⟨ns, hns⟩ := h.rooted.spine n hn
  exact ⟨ns, hns, h.climb_eq hns⟩

theorem parent_mem (hne : n ≠ t.rootNode) : ∃ p ∈ t.arena, t.parent n = some p :=
  h.rooted.parent_mem hn hne

theorem climb_cons (hne : n ≠ t.rootNode) (hp : t.parent n = some p) :
    t.climb n = n :: t.climb p := by
  obtain ⟨q, hq, hpar⟩ := h.parent_mem hn hne
  rw [hp] at hpar
  cases hpar
  obtain ⟨ps, hps, hclimb⟩ := h.exists_spine hq
  rw [hclimb, h.climb_eq (.snoc hn hne hp hps)]
  simp

theorem climb_nodup : (t.climb n).Nodup := by
  obtain ⟨ns, hns, hclimb⟩ := h.exists_spine hn
  rw [hclimb]
  exact nodup_reverse.mpr hns.nodup

theorem mem_climb (hx : x ∈ t.climb n) : x ∈ t.arena ∧ x ≠ t.rootNode := by
  obtain ⟨ns, hns, hclimb⟩ := h.exists_spine hn
  rw [hclimb, mem_reverse] at hx
  exact hns.mem hx

theorem climb_of_append (xs : List NodeId) {ys : List NodeId}
    (hclimb : t.climb n = xs ++ x :: ys) : t.climb x = x :: ys := by
  obtain ⟨ns, hns, hrev⟩ := h.exists_spine hn
  rw [hrev, reverse_eq_iff, reverse_append, reverse_cons] at hclimb
  rw [hclimb, append_assoc] at hns
  rw [h.climb_eq hns.cut]
  simp

end WF

/-- A climb through `c` once `m` was put above it. -/
def splitClimb (c m : NodeId) (xs : List NodeId) : List NodeId :=
  xs.flatMap fun x => if x = c then [x, m] else [x]

theorem reverse_through : (Forest.through c m ns).reverse = splitClimb c m ns.reverse := by
  unfold Forest.through
  rw [reverse_flatMap]
  congr 1
  funext x
  by_cases hx : x = c <;> simp [hx]

theorem splitClimb_append (xs ys : List NodeId) :
    splitClimb c m (xs ++ ys) = splitClimb c m xs ++ splitClimb c m ys := by
  simp [splitClimb]

theorem splitClimb_of_not_mem (h : c ∉ xs) : splitClimb c m xs = xs := by
  have hrev : c ∉ xs.reverse := by rwa [mem_reverse]
  rw [← xs.reverse_reverse, ← reverse_through, Forest.through_of_not_mem hrev]

theorem splitClimb_cons_self (xs : List NodeId) :
    splitClimb c m (c :: xs) = c :: m :: splitClimb c m xs := by
  simp [splitClimb]

theorem splitClimb_cons_of_ne (hx : x ≠ c) (xs : List NodeId) :
    splitClimb c m (x :: xs) = x :: splitClimb c m xs := by
  simp [splitClimb, hx]

theorem mem_splitClimb : x ∈ splitClimb c m xs ↔ x ∈ xs ∨ (x = m ∧ c ∈ xs) := by
  rw [← xs.reverse_reverse, ← reverse_through]
  simp [Forest.mem_through]

/-! ## Edits -/

namespace WF

variable (h : t.WF) {splitLen : Nat}
include h

theorem fresh_insert : ∀ n ∈ insert t.counter t.arena, n < t.counter + 1 := by
  intro n hn
  rcases mem_insert.mp hn with rfl | hn
  · exact Nat.lt_succ_self _
  · exact (h.fresh n hn).trans (Nat.lt_succ_self _)

theorem parent_ne_counter (hx : x ∈ t.arena) (hxr : x ≠ t.rootNode) :
    t.parent x ≠ some t.counter := by
  intro hxp
  obtain ⟨r, hr, hxr'⟩ := h.parent_mem hx hxr
  rw [hxp] at hxr'
  cases hxr'
  exact h.counter_not_mem hr

theorem addNode (hp : p ∈ t.arena) {len : Nat} (hlen : 0 < len) : (t.addNode p len).WF := by
  have hm := h.counter_not_mem
  have hpm := h.ne_counter hp
  have hrm := h.ne_counter h.root_mem
  refine ⟨h.rooted.attach hp hm, h.fresh_insert, ?_, ?_⟩
  · intro q hq x
    have hxpar : (t.addNode p len).parent x = if x = t.counter then some p else t.parent x := by
      simp only [Tree.addNode, update_apply]
    have hxch : (t.addNode p len).children q = if q = p then insert t.counter (t.children p)
        else if q = t.counter then ∅ else t.children q := by
      simp only [Tree.addNode, update_apply, hpm, if_false]
    have hroot : (t.addNode p len).rootNode = t.rootNode := rfl
    have harena : (t.addNode p len).arena = insert t.counter t.arena := rfl
    rw [hxch, hxpar, hroot, harena, mem_insert]
    by_cases hqp : q = p
    · subst hqp
      rw [if_pos rfl, mem_insert, h.links q hp x]
      by_cases hxm : x = t.counter
      · subst hxm
        simp [hrm.symm]
      · simp [hxm]
    rw [if_neg hqp]
    by_cases hqm : q = t.counter
    · subst hqm
      rw [if_pos rfl]
      by_cases hxm : x = t.counter
      · subst hxm
        simp [hpm]
      · simp only [hxm, false_or, notMem_empty, false_iff]
        exact fun hx => h.parent_ne_counter hx.1 hx.2.1 hx.2.2
    · have hqa : q ∈ t.arena := mem_of_mem_insert_of_ne hq hqm
      rw [if_neg hqm, h.links q hqa x]
      by_cases hxm : x = t.counter
      · subst hxm
        simp [hm, Ne.symm hqp]
      · simp [hxm]
  · intro n hn hnr
    have hkey : (t.addNode p len).keyLen n = if n = t.counter then len else t.keyLen n := by
      simp only [Tree.addNode, update_apply]
    rw [hkey]
    split_ifs with hnm
    · exact hlen
    · exact h.keyLen_pos n (mem_of_mem_insert_of_ne hn hnm) hnr

/-- A split adds the new node below the parent and moves the child below it. -/
theorem splitNode (hc : child ∈ t.arena) (hne : child ≠ t.rootNode)
    (hpos : 0 < splitLen) (hlt : splitLen < t.keyLen child) : (t.splitNode child splitLen).WF := by
  have hcm := h.ne_counter hc
  obtain ⟨p, hp, hpar⟩ := h.parent_mem hc hne
  have hpm := h.ne_counter hp
  have hadd := h.addNode hp hpos
  refine ⟨h.rooted.split hc hne h.counter_not_mem, h.fresh_insert, ?_, ?_⟩
  · intro q hq x
    by_cases hxc : x = child
    · subst hxc
      have hmem : x ∈ (t.splitNode x splitLen).children q ↔ q = t.counter := by
        simp only [Tree.splitNode, hpar, update_apply, hpm, if_false]
        split_ifs with hqp hqm
        · simp [hcm, hqp, hpm]
        · simp [hqm]
        · rw [h.links q (mem_of_mem_insert_of_ne hq hqm), hpar]
          simp [hqm, Ne.symm hqp]
      rw [hmem]
      simp [Tree.splitNode, hc, hne, eq_comm]
    · have hmem : x ∈ (t.splitNode child splitLen).children q ↔
          x ∈ (t.addNode p splitLen).children q := by
        simp only [Tree.splitNode, Tree.addNode, hpar, update_apply, hpm, if_false]
        split_ifs <;> simp [hxc]
      rw [hmem, hadd.links q hq x]
      simp [Tree.splitNode, Tree.addNode, hxc, hpar]
  · intro n hn hnr
    have hlen : (t.splitNode child splitLen).keyLen n = if n = child then t.keyLen child - splitLen
        else (t.addNode p splitLen).keyLen n := by
      simp only [Tree.splitNode, Tree.addNode, update_apply]
    rw [hlen]
    split_ifs
    · omega
    · exact hadd.keyLen_pos n hn hnr

theorem leaf (hn : n ∈ t.arena) (hleaf : t.children n = ∅) :
    ∀ c ∈ t.arena, t.parent c = some n → c = t.rootNode := by
  intro c hc hpar
  by_contra hne
  have hmem := (h.links n hn c).mpr ⟨hc, hne, hpar⟩
  rw [hleaf] at hmem
  simp at hmem

theorem removeNode (hn : n ∈ t.arena) (hne : n ≠ t.rootNode)
    (hleaf : t.children n = ∅) : (t.removeNode n).WF := by
  obtain ⟨p, hp, hpar⟩ := h.parent_mem hn hne
  refine ⟨h.rooted.detach hne (h.leaf hn hleaf), ?_, ?_, ?_⟩
  · exact fun x hx => h.fresh x (mem_of_mem_erase hx)
  · intro q hq x
    have hqa : q ∈ t.arena := mem_of_mem_erase hq
    have hch : (t.removeNode n).children q = if q = p then (t.children p).erase n
        else t.children q := by
      simp only [Tree.removeNode, hpar, update_apply]
    have harena : (t.removeNode n).arena = t.arena.erase n := rfl
    rw [hch, harena, mem_erase]
    by_cases hqp : q = p
    · subst hqp
      rw [if_pos rfl, mem_erase, h.links q hp x]
      tauto
    rw [if_neg hqp, h.links q hqa x, and_assoc]
    refine (and_iff_right_of_imp ?_).symm
    rintro ⟨-, -, hxp⟩ rfl
    exact hqp (Option.some.inj (hxp.symm.trans hpar))
  · exact fun x hx hxr => h.keyLen_pos x (mem_of_mem_erase hx) hxr

omit h in
theorem ofFresh (counter : Nat) : (Tree.fresh counter).WF := by
  have hsingle : ∀ n ∈ (Tree.fresh counter).arena, n = (Tree.fresh counter).rootNode :=
    fun n hn => Finset.mem_singleton.mp hn
  refine ⟨⟨Finset.mem_singleton_self _, ?_⟩, ?_, ?_, ?_⟩
  · intro n hn
    rw [hsingle n hn]
    exact ⟨[], .root⟩
  · intro n hn
    rw [hsingle n hn]
    exact Nat.lt_succ_self _
  · intro p _ c
    simp [Tree.fresh]
  · exact fun n hn hnr => absurd (hsingle n hn) hnr

/-! ### Climbs after an edit -/

theorem climb_splitNode (hc : child ∈ t.arena) (hne : child ≠ t.rootNode) (hpos : 0 < splitLen)
    (hlt : splitLen < t.keyLen child) (hn : n ∈ t.arena) :
    (t.splitNode child splitLen).climb n = splitClimb child t.counter (t.climb n) := by
  obtain ⟨ns, hns, hclimb⟩ := h.exists_spine hn
  have hspine := hns.split hc hne h.counter_not_mem h.rooted
  rw [(h.splitNode hc hne hpos hlt).climb_eq hspine, hclimb, reverse_through]

theorem climb_addNode (hp : p ∈ t.arena) {len : Nat} (hlen : 0 < len)
    (hn : n ∈ t.arena) : (t.addNode p len).climb n = t.climb n := by
  obtain ⟨ns, hns, hclimb⟩ := h.exists_spine hn
  rw [hclimb]
  exact (h.addNode hp hlen).climb_eq (hns.attach h.counter_not_mem)

theorem climb_removeNode (hx : x ∈ t.arena) (hxr : x ≠ t.rootNode)
    (hleaf : t.children x = ∅) (hn : n ∈ t.arena) (hnx : n ≠ x) :
    (t.removeNode x).climb n = t.climb n := by
  obtain ⟨ns, hns, hclimb⟩ := h.exists_spine hn
  rw [hclimb]
  exact (h.removeNode hx hxr hleaf).climb_eq (hns.detach (h.leaf hx hleaf) hnx)

end WF

end Tree

end SparkInfer.Unified
