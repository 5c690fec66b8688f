import SparkInfer.Lib.Trie
import SparkInfer.Radix.Tree

/-!
# The heap is a paged radix trie

`Shape` says that the links of a heap form a tree on a set of nodes and that the
`children` dictionaries index it by first page; the trie it stands for spells the
tagged units of the keys with the stored KV indices.  The three structural writes
of the cache are the three trie edits.
-/

namespace SparkInfer.Radix

open Lib Lib.CommonPrefix List Finset AList RadixKey Skeleton Option

abbrev Atom := Namespace × PyVal

namespace Skeleton

def label (s : Skeleton) (n : NodeId) : List (Atom × Int) := (s.key n).tagged.zip (s.value n)

def trie (s : Skeleton) (nodes : Finset NodeId) : Trie NodeId (Atom × Int) where
  root := s.rootNode
  nodes := nodes
  parent := s.parent
  label := s.label

end Skeleton

/-- `n` is the child of `p` whose first page is filed under `ck`. -/
@[mk_iff]
structure IsChild (pageSize : Nat) (s : Skeleton) (nodes : Finset NodeId) (p : NodeId)
    (ck : PyVal) (n : NodeId) : Prop where
  mem : n ∈ nodes
  ne_root : n ≠ s.rootNode
  parent : s.parent n = some p
  childKey : (s.key n).childKey pageSize = .ok ck

structure Shape (pageSize : Nat) (s : Skeleton) (nodes : Finset NodeId) : Prop where
  wf : (s.trie nodes).WF pageSize
  fresh : ∀ n ∈ nodes, n < s.counter
  value_len : ∀ n ∈ nodes, (s.value n).length = (s.key n).len
  lookup : ∀ p ∈ nodes, ∀ ck n, (s.children p).lookup ck = some n ↔ IsChild pageSize s nodes p ck n
  root_parent : s.parent s.rootNode = none
  root_key : (s.key s.rootNode).len = 0
  same_ns : ∀ n ∈ nodes, n ≠ s.rootNode → ∀ p, s.parent n = some p → p ≠ s.rootNode →
    (s.key p).ns = (s.key n).ns

structure SplitGuard (pageSize : Nat) (s : Skeleton) (nodes : Finset NodeId)
    (child p : NodeId) (splitLen : Nat) (headKey tailKey : PyVal) : Prop where
  mem : child ∈ nodes
  ne_root : child ≠ s.rootNode
  parent : s.parent child = some p
  dvd : pageSize ∣ splitLen
  pos : 0 < splitLen
  lt : splitLen < (s.key child).len
  head : (s.key child).childKey pageSize = .ok headKey
  tail : ((s.key child).getSlice splitLen (s.key child).len).childKey pageSize = .ok tailKey

structure AddGuard (pageSize : Nat) (s : Skeleton) (nodes : Finset NodeId) (node : NodeId)
    (key : RadixKey) (value : List Int) (ck : PyVal) : Prop where
  mem : node ∈ nodes
  dvd : pageSize ∣ key.len
  pos : 0 < key.len
  value_len : value.length = key.len
  childKey : key.childKey pageSize = .ok ck
  lookup : (s.children node).lookup ck = none
  same_ns : node ≠ s.rootNode → (s.key node).ns = key.ns

variable {pageSize : Nat} {s : Skeleton} {nodes : Finset NodeId} {node child p n x : NodeId}
variable {splitLen : Nat} {headKey tailKey ck : PyVal} {key : RadixKey} {value : List Int}
variable {k : RadixKey} {q : NodeId}

namespace Shape

variable (h : Shape pageSize s nodes)
include h

theorem counter_not_mem : s.counter ∉ nodes :=
  fun hmem => absurd (h.fresh _ hmem) (lt_irrefl _)

theorem ne_counter (hn : n ∈ nodes) : n ≠ s.counter :=
  (h.fresh n hn).ne

theorem root_mem : s.rootNode ∈ nodes := h.wf.root_mem

section

variable (hn : n ∈ nodes)
include hn

theorem length_label : (s.label n).length = (s.key n).len := by
  rw [label, length_zip, length_tagged, h.value_len n hn, min_self]

theorem keys_label : Trie.keys (s.label n) = (s.key n).tagged := by
  rw [Trie.keys, label, map_fst_zip]
  rw [length_tagged, h.value_len n hn]

theorem vals_label : (s.label n).map Prod.snd = s.value n := by
  rw [label, map_snd_zip]
  rw [length_tagged, h.value_len n hn]

variable (hne : n ≠ s.rootNode)
include hne

theorem dvd_len : pageSize ∣ (s.key n).len := by
  rw [← h.length_label hn]
  exact h.wf.dvd n hn hne

theorem page_le_len : pageSize ≤ (s.key n).len := by
  rw [← h.length_label hn]
  exact h.wf.page_le_label hn hne

theorem len_pos : 0 < (s.key n).len := by
  rw [← h.length_label hn]
  exact length_pos_of_ne_nil (h.wf.ne_nil n hn hne)

theorem parent_mem : ∃ p ∈ nodes, s.parent n = some p :=
  h.wf.toRooted.parent_mem hn hne

theorem mem_of_parent (hp : s.parent n = some p) : p ∈ nodes := by
  obtain ⟨q, hq, hpar⟩ := h.parent_mem hn hne
  rw [hp] at hpar
  cases hpar
  exact hq

theorem childKey_ok : ∃ ck, (s.key n).childKey pageSize = .ok ck :=
  ⟨_, childKey_eq _ (h.page_le_len hn hne)⟩

end

theorem children_empty_iff (hp : p ∈ nodes) :
    (s.children p).keys = [] ↔ ∀ c ∈ nodes, s.parent c = some p → c = s.rootNode := by
  constructor
  · intro hempty c hc hpar
    by_contra hne
    obtain ⟨ck, hck⟩ := h.childKey_ok hc hne
    have hlook := (h.lookup p hp ck c).mpr ⟨hc, hne, hpar, hck⟩
    have hmem : ck ∈ s.children p := lookup_isSome.mp (by rw [hlook]; rfl)
    rw [AList.mem_keys, hempty] at hmem
    simp at hmem
  · intro hleaf
    by_contra hne
    obtain ⟨ck, cks, hkeys⟩ := exists_cons_of_ne_nil hne
    have hmem : ck ∈ s.children p := by
      rw [AList.mem_keys, hkeys]
      simp
    obtain ⟨c, hc⟩ := isSome_iff_exists.mp (lookup_isSome.mpr hmem)
    have hchild := (h.lookup p hp ck c).mp hc
    exact hchild.ne_root (hleaf c hchild.mem hchild.parent)

theorem stuck_of_lookup (hps : 0 < pageSize) (hp : p ∈ nodes) (hk : pageSize ≤ k.len)
    (hck : k.childKey pageSize = .ok ck) (hlook : (s.children p).lookup ck = none) :
    (s.trie nodes).Stuck pageSize p k.tagged := by
  intro c hc hne hpar hpage
  have htake : (s.key c).tagged.take pageSize = k.tagged.take pageSize := by
    rw [← h.keys_label hc, ← hpage, Trie.keys, Trie.keys, map_take]
    rfl
  have hckc : (s.key c).childKey pageSize = .ok ck := by
    rw [← hck]
    exact (childKey_eq_iff hps (h.page_le_len hc hne) hk).mpr htake
  rw [(h.lookup p hp ck c).mpr ⟨hc, hne, hpar, hckc⟩] at hlook
  simp at hlook

theorem child_of_lookup (hps : 0 < pageSize) (hp : p ∈ nodes) (hk : pageSize ≤ k.len)
    (hck : k.childKey pageSize = .ok ck) (hlook : (s.children p).lookup ck = some child) :
    child ∈ nodes ∧ child ≠ s.rootNode ∧ s.parent child = some p ∧
      (s.key child).tagged.take pageSize = k.tagged.take pageSize := by
  obtain ⟨hc, hne, hpar, hckc⟩ := (h.lookup p hp ck child).mp hlook
  refine ⟨hc, hne, hpar, ?_⟩
  rw [← childKey_eq_iff hps (h.page_le_len hc hne) hk, hckc, hck]

theorem not_isChild_counter : ¬ IsChild pageSize s nodes s.counter ck n :=
  fun hn => h.counter_not_mem (h.mem_of_parent hn.mem hn.ne_root hn.parent)

theorem isChild_unique (hn : IsChild pageSize s nodes p ck n) (hx : IsChild pageSize s nodes p ck x) :
    n = x := by
  have hp := h.mem_of_parent hn.mem hn.ne_root hn.parent
  have hlook := (h.lookup p hp ck n).mpr hn
  rw [(h.lookup p hp ck x).mpr hx] at hlook
  exact (some.inj hlook).symm

/-- A child is filed nowhere but in its own place. -/
theorem lookup_away (hx : IsChild pageSize s nodes p ck x) {ck' : PyVal} (hq : q ∈ nodes)
    (haway : q = p → ck' ≠ ck) :
    (s.children q).lookup ck' = some n ↔ n ≠ x ∧ IsChild pageSize s nodes q ck' n := by
  rw [h.lookup q hq]
  refine (and_iff_right_of_imp fun hn => ?_).symm
  rintro rfl
  exact haway (some.inj (hn.parent.symm.trans hx.parent))
    (Except.ok.inj (hn.childKey.symm.trans hx.childKey))

theorem fresh_insert (hn : n ∈ insert s.counter nodes) : n < s.counter + 1 := by
  rcases mem_insert.mp hn with rfl | hn
  · exact Nat.lt_succ_self _
  · exact (h.fresh n hn).trans (Nat.lt_succ_self _)

end Shape

section Split

namespace Skeleton

theorem splitNode_parent_child :
    (s.splitNode child p splitLen headKey tailKey).parent child = some s.counter := by
  simp [splitNode]

theorem splitNode_parent_new (hc : child ≠ s.counter) :
    (s.splitNode child p splitLen headKey tailKey).parent s.counter = s.parent child := by
  simp [splitNode, hc.symm]

theorem splitNode_parent_old (hnm : n ≠ s.counter) (hnc : n ≠ child) :
    (s.splitNode child p splitLen headKey tailKey).parent n = s.parent n := by
  simp [splitNode, hnm, hnc]

theorem splitNode_key_child : (s.splitNode child p splitLen headKey tailKey).key child =
      (s.key child).getSlice splitLen (s.key child).len := by
  simp [splitNode]

theorem splitNode_key_new (hc : child ≠ s.counter) :
    (s.splitNode child p splitLen headKey tailKey).key s.counter =
      (s.key child).getSlice 0 splitLen := by
  simp [splitNode, hc.symm]

theorem splitNode_key_old (hnm : n ≠ s.counter) (hnc : n ≠ child) :
    (s.splitNode child p splitLen headKey tailKey).key n = s.key n := by
  simp [splitNode, hnm, hnc]

theorem splitNode_value_child : (s.splitNode child p splitLen headKey tailKey).value child =
      (s.value child).drop splitLen := by
  simp [splitNode]

theorem splitNode_value_new (hc : child ≠ s.counter) :
    (s.splitNode child p splitLen headKey tailKey).value s.counter =
      (s.value child).take splitLen := by
  simp [splitNode, hc.symm]

theorem splitNode_value_old (hnm : n ≠ s.counter) (hnc : n ≠ child) :
    (s.splitNode child p splitLen headKey tailKey).value n = s.value n := by
  simp [splitNode, hnm, hnc]

theorem splitNode_children_new (hp : p ≠ s.counter) :
    (s.splitNode child p splitLen headKey tailKey).children s.counter =
      AList.insert tailKey child ∅ := by
  simp [splitNode, hp.symm]

theorem splitNode_children_parent (hp : p ≠ s.counter) :
    (s.splitNode child p splitLen headKey tailKey).children p =
      AList.insert headKey s.counter (s.children p) := by
  simp [splitNode, hp]

theorem splitNode_children_old (hnm : n ≠ s.counter) (hnp : n ≠ p) :
    (s.splitNode child p splitLen headKey tailKey).children n = s.children n := by
  simp [splitNode, hnm, hnp]

theorem label_splitNode (hlen : splitLen ≤ (s.key child).len) (hchild : child ≠ s.counter) :
    (s.splitNode child p splitLen headKey tailKey).label n =
      if n = child then (s.label child).drop splitLen
      else if n = s.counter then (s.label child).take splitLen
      else s.label n := by
  unfold label
  by_cases hn : n = child
  · rw [if_pos hn, hn, splitNode_key_child, splitNode_value_child, tagged_drop _ hlen,
      zip_eq_zipWith, zip_eq_zipWith, drop_zipWith]
  rw [if_neg hn]
  by_cases hm : n = s.counter
  · rw [if_pos hm, hm, splitNode_key_new hchild, splitNode_value_new hchild,
      tagged_take _ hlen, zip_eq_zipWith, zip_eq_zipWith, take_zipWith]
  · rw [if_neg hm, splitNode_key_old hm hn, splitNode_value_old hm hn]

theorem trie_splitNode (hlen : splitLen ≤ (s.key child).len) (hchild : child ≠ s.counter) :
    (s.splitNode child p splitLen headKey tailKey).trie (insert s.counter nodes) =
      (s.trie nodes).split child s.counter splitLen := by
  have hlabel : (s.splitNode child p splitLen headKey tailKey).label =
      ((s.trie nodes).split child s.counter splitLen).label := by
    funext n
    rw [label_splitNode hlen hchild]
    simp only [Trie.split, trie, Function.update_apply]
  unfold trie
  rw [hlabel]
  rfl

end Skeleton

open Skeleton

variable (h : Shape pageSize s nodes)
include h

theorem Shape.lookup_splitNode (g : SplitGuard pageSize s nodes child p splitLen headKey tailKey)
    (hq : q ∈ insert s.counter nodes) :
    ((s.splitNode child p splitLen headKey tailKey).children q).lookup ck = some n ↔
      (q = s.counter ∧ n = child ∧ ck = tailKey) ∨ (q = p ∧ n = s.counter ∧ ck = headKey) ∨
      (n ≠ child ∧ IsChild pageSize s nodes q ck n) := by
  have hpm : p ≠ s.counter := h.ne_counter (h.mem_of_parent g.mem g.ne_root g.parent)
  have hchild : IsChild pageSize s nodes p headKey child := ⟨g.mem, g.ne_root, g.parent, g.head⟩
  by_cases hqm : q = s.counter
  · subst hqm
    rw [splitNode_children_new hpm]
    by_cases hck : ck = tailKey
    · subst hck
      rw [lookup_insert]
      simp [h.not_isChild_counter, hpm.symm, eq_comm]
    · rw [lookup_insert_ne hck]
      simp [h.not_isChild_counter, hpm.symm, hck]
  have hq' : q ∈ nodes := mem_of_mem_insert_of_ne hq hqm
  by_cases hqp : q = p
  · subst hqp
    rw [splitNode_children_parent hpm]
    by_cases hck : ck = headKey
    · subst hck
      have honly : ¬ (n ≠ child ∧ IsChild pageSize s nodes q ck n) :=
        fun ⟨hne, hn⟩ => hne (h.isChild_unique hn hchild)
      rw [lookup_insert, or_iff_left honly]
      simp [hqm, eq_comm]
    · rw [lookup_insert_ne hck, h.lookup_away hchild hq' fun _ => hck]
      simp [hqm, hck]
  · rw [splitNode_children_old hqm hqp, h.lookup_away hchild hq' fun hqp' => absurd hqp' hqp]
    simp [hqm, hqp]

theorem Shape.isChild_splitNode (g : SplitGuard pageSize s nodes child p splitLen headKey tailKey)
    (hhead : ((s.key child).getSlice 0 splitLen).childKey pageSize = .ok headKey) :
    IsChild pageSize (s.splitNode child p splitLen headKey tailKey) (insert s.counter nodes)
        q ck n ↔
      (q = s.counter ∧ n = child ∧ ck = tailKey) ∨ (q = p ∧ n = s.counter ∧ ck = headKey) ∨
      (n ≠ child ∧ IsChild pageSize s nodes q ck n) := by
  have hm := h.counter_not_mem
  have hcm : child ≠ s.counter := h.ne_counter g.mem
  have hroot : (s.splitNode child p splitLen headKey tailKey).rootNode = s.rootNode := rfl
  rw [isChild_iff, hroot]
  by_cases hnc : n = child
  · subst hnc
    rw [splitNode_parent_child, splitNode_key_child, g.tail]
    simp [g.mem, g.ne_root, hcm, eq_comm]
  by_cases hnm : n = s.counter
  · subst hnm
    rw [splitNode_parent_new hcm, g.parent, splitNode_key_new hcm, hhead]
    simp [hnc, (h.ne_counter h.root_mem).symm, isChild_iff, hm, eq_comm]
  · rw [splitNode_parent_old hnm hnc, splitNode_key_old hnm hnc]
    simp [isChild_iff, hnm, hnc]

omit h in
theorem RadixKey.childKey_getSlice_head (hps : 0 < pageSize)
    (hpage : pageSize ≤ splitLen) (hlen : splitLen ≤ k.len) :
    (k.getSlice 0 splitLen).childKey pageSize = k.childKey pageSize := by
  have hhead : pageSize ≤ (k.getSlice 0 splitLen).len := by
    rw [len_getSlice _ (Nat.zero_le _) hlen]
    omega
  apply (childKey_eq_iff hps hhead (hpage.trans hlen)).mpr
  rw [tagged_take _ hlen, take_take, min_eq_left hpage]

theorem Shape.split (hps : 0 < pageSize)
    (g : SplitGuard pageSize s nodes child p splitLen headKey tailKey) :
    Shape pageSize (s.splitNode child p splitLen headKey tailKey) (insert s.counter nodes) := by
  have hc := g.mem
  have hne := g.ne_root
  have hlt := g.lt
  have hcm : child ≠ s.counter := h.ne_counter hc
  have hrm : s.rootNode ≠ s.counter := h.ne_counter h.root_mem
  have hhead' : ((s.key child).getSlice 0 splitLen).childKey pageSize = .ok headKey := by
    rw [childKey_getSlice_head hps (Nat.le_of_dvd g.pos g.dvd) hlt.le, g.head]
  refine ⟨?_, ?_, ?_, ?_, ?_, ?_, ?_⟩
  · rw [trie_splitNode hlt.le hcm]
    refine h.wf.split hc hne h.counter_not_mem g.dvd g.pos ?_
    change splitLen < (s.label child).length
    rwa [h.length_label hc]
  · exact fun n hn => h.fresh_insert hn
  · intro n hn
    have hval := h.value_len child hc
    by_cases hnc : n = child
    · rw [hnc, splitNode_key_child, splitNode_value_child,
        len_getSlice _ hlt.le le_rfl, length_drop, hval]
    rcases mem_insert.mp hn with rfl | hn
    · rw [splitNode_key_new hcm, splitNode_value_new hcm,
        len_getSlice _ (Nat.zero_le _) hlt.le, length_take]
      omega
    · have hnm := h.ne_counter hn
      rw [splitNode_key_old hnm hnc, splitNode_value_old hnm hnc, h.value_len n hn]
  · intro q hq ck n
    rw [h.lookup_splitNode g hq, h.isChild_splitNode g hhead']
  · exact (splitNode_parent_old hrm hne.symm).trans h.root_parent
  · change ((s.splitNode child p splitLen headKey tailKey).key s.rootNode).len = 0
    rw [splitNode_key_old hrm hne.symm, h.root_key]
  · -- both parts keep the namespace of the old child
    have hns : ∀ n ∈ insert s.counter nodes,
        ((s.splitNode child p splitLen headKey tailKey).key n).ns =
          (s.key (if n = s.counter then child else n)).ns := by
      intro n hn
      by_cases hnc : n = child
      · rw [hnc, if_neg hcm, splitNode_key_child, ns_getSlice]
      · by_cases hnm : n = s.counter
        · rw [if_pos hnm, hnm, splitNode_key_new hcm, ns_getSlice]
        · rw [if_neg hnm, splitNode_key_old hnm hnc]
    intro n hn hnr q hq hqr
    have hnr' : n ≠ s.rootNode := hnr
    have hqr' : q ≠ s.rootNode := hqr
    by_cases hnc : n = child
    · rw [hnc, splitNode_parent_child] at hq
      cases hq
      rw [hnc, hns _ (mem_insert_self _ _), hns _ (mem_insert_of_mem hc), if_pos rfl, if_neg hcm]
    by_cases hnm : n = s.counter
    · rw [hnm, splitNode_parent_new hcm] at hq
      have hqmem := h.mem_of_parent hc hne hq
      rw [hnm, hns _ (mem_insert_self _ _), hns _ (mem_insert_of_mem hqmem),
        if_pos rfl, if_neg (h.ne_counter hqmem)]
      exact h.same_ns child hc hne q hq hqr'
    · have hmem := mem_of_mem_insert_of_ne hn hnm
      rw [splitNode_parent_old hnm hnc] at hq
      have hqmem := h.mem_of_parent hmem hnr' hq
      rw [hns _ hn, hns _ (mem_insert_of_mem hqmem), if_neg hnm, if_neg (h.ne_counter hqmem)]
      exact h.same_ns n hmem hnr' q hq hqr'

end Split

section AddLeaf

namespace Skeleton

theorem addLeaf_parent_old (hnm : n ≠ s.counter) :
    (s.addLeaf node key value ck).parent n = s.parent n := by
  simp [addLeaf, hnm]

theorem addLeaf_parent_new : (s.addLeaf node key value ck).parent s.counter = some node := by
  simp [addLeaf]

theorem addLeaf_key_old (hnm : n ≠ s.counter) : (s.addLeaf node key value ck).key n = s.key n := by
  simp [addLeaf, hnm]

theorem addLeaf_key_new : (s.addLeaf node key value ck).key s.counter = key := by
  simp [addLeaf]

theorem addLeaf_value_old (hnm : n ≠ s.counter) :
    (s.addLeaf node key value ck).value n = s.value n := by
  simp [addLeaf, hnm]

theorem addLeaf_value_new : (s.addLeaf node key value ck).value s.counter = value := by
  simp [addLeaf]

theorem addLeaf_children_new (hp : node ≠ s.counter) :
    (s.addLeaf node key value ck).children s.counter = ∅ := by
  simp [addLeaf, hp.symm]

theorem addLeaf_children_parent (hp : node ≠ s.counter) :
    (s.addLeaf node key value ck).children node = AList.insert ck s.counter (s.children node) := by
  simp [addLeaf, hp]

theorem addLeaf_children_old (hnm : n ≠ s.counter) (hnp : n ≠ node) :
    (s.addLeaf node key value ck).children n = s.children n := by
  simp [addLeaf, hnm, hnp]

theorem label_addLeaf : (s.addLeaf node key value ck).label n =
      if n = s.counter then key.tagged.zip value else s.label n := by
  unfold label
  by_cases hm : n = s.counter
  · rw [if_pos hm, hm, addLeaf_key_new, addLeaf_value_new]
  · rw [if_neg hm, addLeaf_key_old hm, addLeaf_value_old hm]

theorem trie_addLeaf : (s.addLeaf node key value ck).trie (insert s.counter nodes) =
      (s.trie nodes).attach node s.counter (key.tagged.zip value) := by
  have hlabel : (s.addLeaf node key value ck).label =
      ((s.trie nodes).attach node s.counter (key.tagged.zip value)).label := by
    funext n
    rw [label_addLeaf]
    simp only [Trie.attach, trie, Function.update_apply]
  unfold trie
  rw [hlabel]
  rfl

end Skeleton

open Skeleton

theorem Shape.add (h : Shape pageSize s nodes) (hps : 0 < pageSize)
    (g : AddGuard pageSize s nodes node key value ck) :
    Shape pageSize (s.addLeaf node key value ck) (insert s.counter nodes) := by
  have hval := g.value_len
  have hck := g.childKey
  have hnm : node ≠ s.counter := h.ne_counter g.mem
  have hrm : s.rootNode ≠ s.counter := h.ne_counter h.root_mem
  have hpage : pageSize ≤ key.len := Nat.le_of_dvd g.pos g.dvd
  have hlen : (key.tagged.zip value).length = key.len := by simp [hval]
  refine ⟨?_, ?_, ?_, ?_, ?_, ?_, ?_⟩
  · rw [trie_addLeaf]
    refine h.wf.attach g.mem h.counter_not_mem (by rw [hlen]; exact g.dvd) ?_ ?_
    · exact ne_nil_of_length_pos (by rw [hlen]; exact g.pos)
    · rw [Trie.keys, map_fst_zip (by simp [hval])]
      exact h.stuck_of_lookup hps g.mem hpage hck g.lookup
  · exact fun n hn => h.fresh_insert hn
  · intro n hn
    rcases mem_insert.mp hn with rfl | hn
    · rw [addLeaf_key_new, addLeaf_value_new, hval]
    · rw [addLeaf_key_old (h.ne_counter hn), addLeaf_value_old (h.ne_counter hn), h.value_len n hn]
  · intro q hq ck' n
    have hischild : IsChild pageSize (s.addLeaf node key value ck) (insert s.counter nodes) q ck' n
        ↔ (q = node ∧ n = s.counter ∧ ck' = ck) ∨ IsChild pageSize s nodes q ck' n := by
      have hroot : (s.addLeaf node key value ck).rootNode = s.rootNode := rfl
      rw [isChild_iff, isChild_iff, hroot, Finset.mem_insert]
      by_cases hn : n = s.counter
      · subst hn
        rw [addLeaf_parent_new, addLeaf_key_new, hck]
        simp [h.counter_not_mem, hrm.symm, eq_comm]
      · rw [addLeaf_parent_old hn, addLeaf_key_old hn]
        simp [hn]
    rw [hischild]
    by_cases hqm : q = s.counter
    · subst hqm
      rw [addLeaf_children_new hnm]
      simp [h.not_isChild_counter, hnm.symm]
    have hq' : q ∈ nodes := mem_of_mem_insert_of_ne hq hqm
    by_cases hqn : q = node
    · subst hqn
      rw [addLeaf_children_parent hnm]
      by_cases hckk : ck' = ck
      · subst hckk
        rw [← h.lookup q hq', g.lookup]
        simp [eq_comm]
      · rw [lookup_insert_ne hckk, h.lookup q hq']
        simp [hckk]
    · rw [addLeaf_children_old hqm hqn, h.lookup q hq']
      simp [hqn]
  · exact (addLeaf_parent_old hrm).trans h.root_parent
  · change ((s.addLeaf node key value ck).key s.rootNode).len = 0
    rw [addLeaf_key_old hrm, h.root_key]
  · intro n hn hnr q hq hqr
    have hqr' : q ≠ s.rootNode := hqr
    rcases mem_insert.mp hn with rfl | hn
    · rw [addLeaf_parent_new] at hq
      cases hq
      rw [addLeaf_key_new, addLeaf_key_old hnm, g.same_ns hqr']
    rw [addLeaf_parent_old (h.ne_counter hn)] at hq
    have hqmem := h.mem_of_parent hn hnr hq
    rw [addLeaf_key_old (h.ne_counter hn), addLeaf_key_old (h.ne_counter hqmem)]
    exact h.same_ns n hn hnr q hq hqr'

end AddLeaf

section RemoveChild

theorem Skeleton.removeChild_children_old (hnp : n ≠ p) :
    (s.removeChild p ck).children n = s.children n := by
  simp [removeChild, hnp]

theorem Skeleton.trie_removeChild :
    (s.removeChild p ck).trie (nodes.erase x) = (s.trie nodes).detach x := rfl

theorem Shape.removeChild (h : Shape pageSize s nodes)
    (hx : IsChild pageSize s nodes p ck x) (hleaf : (s.children x).keys = []) :
    Shape pageSize (s.removeChild p ck) (nodes.erase x) := by
  have hleaf' := (h.children_empty_iff hx.mem).mp hleaf
  refine ⟨?_, ?_, ?_, ?_, h.root_parent, h.root_key, fun n hn => h.same_ns n (mem_of_mem_erase hn)⟩
  · rw [trie_removeChild]
    exact h.wf.detach hx.ne_root hleaf'
  · exact fun n hn => h.fresh n (mem_of_mem_erase hn)
  · exact fun n hn => h.value_len n (mem_of_mem_erase hn)
  intro q hq ck' n
  have hq' := mem_of_mem_erase hq
  have hischild : IsChild pageSize (s.removeChild p ck) (nodes.erase x) q ck' n ↔
      n ≠ x ∧ IsChild pageSize s nodes q ck' n := by
    rw [isChild_iff, isChild_iff, Finset.mem_erase, and_assoc]
    rfl
  rw [hischild]
  by_cases hqp : q = p
  · subst hqp
    rw [show (s.removeChild q ck).children q = (s.children q).erase ck by simp [removeChild]]
    by_cases hck : ck' = ck
    · subst hck
      have honly : ¬ (n ≠ x ∧ IsChild pageSize s nodes q ck' n) :=
        fun ⟨hne, hn⟩ => hne (h.isChild_unique hn hx)
      simp [honly]
    · rw [lookup_erase_ne hck, h.lookup_away hx hq' fun _ => hck]
  · rw [removeChild_children_old hqp, h.lookup_away hx hq' fun hqp' => absurd hqp' hqp]

theorem Shape.reset (pageSize : Nat) (s : Skeleton) :
    Shape pageSize s.reset {s.reset.rootNode} := by
  have hsingle : ∀ n ∈ ({s.reset.rootNode} : Finset NodeId), n = s.reset.rootNode :=
    fun n hn => Finset.mem_singleton.mp hn
  refine ⟨⟨⟨Finset.mem_singleton_self _, ?_⟩, ?_, ?_, ?_⟩, ?_, ?_, ?_, ?_, ?_, ?_⟩
  · intro n hn
    rw [hsingle n hn]
    exact ⟨[], .root⟩
  · exact fun n hn hne => absurd (hsingle n hn) hne
  · exact fun n hn hne => absurd (hsingle n hn) hne
  · exact fun n hn _ _ hne => absurd (hsingle n hn) hne
  · intro n hn
    rw [hsingle n hn]
    exact Nat.lt_succ_self _
  · intro n hn
    rw [hsingle n hn]
    simp [Skeleton.reset, empty, new, len, rawLen]
  · intro p hp ck n
    rw [hsingle p hp]
    constructor
    · simp [Skeleton.reset]
    · intro hn
      exact absurd (hsingle n hn.mem) hn.ne_root
  · simp [Skeleton.reset]
  · simp [Skeleton.reset, empty, new, len, rawLen]
  · exact fun n hn hne => absurd (hsingle n hn) hne

end RemoveChild

/-! ## Membership -/

inductive InTree (s : Skeleton) : NodeId → Prop
  | root : InTree s s.rootNode
  | child {p n : NodeId} {ck : PyVal} (hp : InTree s p)
      (hlook : (s.children p).lookup ck = some n) : InTree s n

theorem Shape.inTree_iff (h : Shape pageSize s nodes) : InTree s n ↔ n ∈ nodes := by
  constructor
  · intro hn
    induction hn with
    | root => exact h.root_mem
    | child _ hlook ih => exact ((h.lookup _ ih _ _).mp hlook).mem
  intro hn
  obtain ⟨ns, hns⟩ := h.wf.spine n hn
  have hspine : ∀ {n : NodeId} {ns : List NodeId}, (s.trie nodes).Spine n ns → InTree s n := by
    intro n ns hns
    induction hns with
    | root => exact .root
    | @snoc n p ns hmem hne hpar hp ih =>
      obtain ⟨ck, hck⟩ := h.childKey_ok hmem hne
      exact .child ih ((h.lookup p (h.mem_of_parent hmem hne hpar) ck n).mpr
        ⟨hmem, hne, hpar, hck⟩)
  exact hspine hns

end SparkInfer.Radix
