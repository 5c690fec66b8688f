import SparkInfer.Gateway.PrefixTree
import SparkInfer.Lib.Trie

/-!
# The shape of the prefix tree

The linked nodes form a radix trie over characters: the children of a node are the
nodes that name it as their parent, keyed by the first character of their text.
Splitting a node, adding a leaf and unlinking a node are the three edits of the trie
library.  Everything else an operation writes leaves the links alone.
-/

namespace SparkInfer.Gateway.Tree

open Lib List Finset Function Finmap

variable {s s' : Tree} {ns : Finset NodeId} {id i p prev : NodeId} {c : Char} {t u : TenantId}
variable {f : Node → Node}

def textOf (s : Tree) (id : NodeId) : List Char := (s.nodes id).text.text

def trie (s : Tree) (ns : Finset NodeId) : Trie NodeId (Char × Unit) where
  root := rootId
  nodes := ns
  parent id := (s.nodes id).parent
  label id := (s.textOf id).map fun c => (c, ())

theorem keys_map_unit (l : List Char) : Trie.keys (l.map fun c => (c, ())) = l := by
  rw [Trie.keys, List.map_map]
  exact map_id l

@[mk_iff]
structure IsChild (s : Tree) (ns : Finset NodeId) (p : NodeId) (c : Char) (id : NodeId) : Prop where
  mem : id ∈ ns
  ne_root : id ≠ rootId
  parent : (s.nodes id).parent = some p
  first : (s.textOf id).head? = some c

structure Shape (s : Tree) (ns : Finset NodeId) : Prop where
  wf : (s.trie ns).WF 1
  lookup : ∀ {p}, p ∈ ns → ∀ c id, (s.nodes p).children.lookup c = some id ↔ IsChild s ns p c id
  rootText : s.textOf rootId = []
  rootParent : (s.nodes rootId).parent = none
  fresh : ∀ {id}, id ∈ ns → id < s.nextId
  unlinked : ∀ {id}, id ∉ ns → ∀ t, s.has id t = false

section Links

/-- `s'` has the same nodes with the same links as `s`. -/
structure SameLinks (s s' : Tree) : Prop where
  children : ∀ i, (s'.nodes i).children = (s.nodes i).children
  text : ∀ i, (s'.nodes i).text = (s.nodes i).text
  parent : ∀ i, (s'.nodes i).parent = (s.nodes i).parent
  nextId : s'.nextId = s.nextId

section

variable (h : SameLinks s s')
include h

theorem SameLinks.textOf (i : NodeId) : s'.textOf i = s.textOf i := by
  rw [Tree.textOf, Tree.textOf, h.text]

theorem SameLinks.trie : s'.trie ns = s.trie ns := by
  have hparent := funext h.parent
  have htext : s'.textOf = s.textOf := funext h.textOf
  rw [Tree.trie, Tree.trie, hparent, htext]

theorem SameLinks.isChild : IsChild s' ns p c i ↔ IsChild s ns p c i :=
  ⟨fun hc => ⟨hc.mem, hc.ne_root, h.parent i ▸ hc.parent, h.textOf i ▸ hc.first⟩,
    fun hc => ⟨hc.mem, hc.ne_root, (h.parent i).trans hc.parent, (h.textOf i).symm ▸ hc.first⟩⟩

theorem SameLinks.shape (hs : s.Shape ns) (hun : ∀ {id}, id ∉ ns → ∀ t, s'.has id t = false) :
    s'.Shape ns where
  wf := h.trie ▸ hs.wf
  lookup hp c id := by rw [h.children, hs.lookup hp, h.isChild]
  rootText := (h.textOf _).trans hs.rootText
  rootParent := (h.parent _).trans hs.rootParent
  fresh hi := h.nextId ▸ hs.fresh hi
  unlinked := hun

theorem SameLinks.trans {s'' : Tree} (h' : SameLinks s' s'') : SameLinks s s'' :=
  ⟨fun i => (h'.children i).trans (h.children i), fun i => (h'.text i).trans (h.text i),
    fun i => (h'.parent i).trans (h.parent i), h'.nextId.trans h.nextId⟩

end

@[simp] theorem nodes_modify_self (f : Node → Node) :
    (s.modify id f).nodes id = f (s.nodes id) := update_self _ _ _

theorem nodes_modify_of_ne (f : Node → Node) (h : i ≠ id) : (s.modify id f).nodes i = s.nodes i :=
  update_of_ne h _ _

theorem modify_keeps {β : Type*} (g : Node → β) (hf : ∀ n, g (f n) = g n)
    (i : NodeId) : g ((s.modify id f).nodes i) = g (s.nodes i) := by
  by_cases hi : i = id
  · rw [hi, nodes_modify_self, hf]
  · rw [nodes_modify_of_ne f hi]

theorem has_modify {u : TenantId} (hf : ∀ n, (f n).tenantLastAccessTime = n.tenantLastAccessTime) :
    (s.modify id f).has i u = s.has i u := by
  rw [has, modify_keeps _ hf, ← has]

theorem sameLinks_modify (hf : ∀ n, (f n).children = n.children ∧
    (f n).text = n.text ∧ (f n).parent = n.parent) : SameLinks s (s.modify id f) :=
  ⟨modify_keeps _ fun n => (hf n).1, modify_keeps _ fun n => (hf n).2.1,
    modify_keeps _ fun n => (hf n).2.2, rfl⟩

theorem sameLinks_setAccess (s : Tree) (id : NodeId) (t : TenantId) (time : UInt64) :
    SameLinks s (s.setAccess id t time) :=
  sameLinks_modify fun _ => ⟨rfl, rfl, rfl⟩

theorem has_setAccess (s : Tree) (id : NodeId) (t : TenantId) (time : UInt64) (i : NodeId)
    (u : TenantId) : (s.setAccess id t time).has i u = true ↔ s.has i u = true ∨ (i = id ∧ u = t) := by
  rw [has, has, setAccess]
  by_cases hi : i = id
  · subst hi
    simp [or_comm]
  · rw [nodes_modify_of_ne _ hi]
    simp [hi]

end Links

section Read

variable (hs : s.Shape ns)
include hs

theorem Shape.root_mem : rootId ∈ ns := hs.wf.root_mem

theorem Shape.nextId_not_mem : s.nextId ∉ ns := fun h => lt_irrefl _ (hs.fresh h)

theorem Shape.ne_nextId (hi : i ∈ ns) : i ≠ s.nextId := fun h => hs.nextId_not_mem (h ▸ hi)

theorem Shape.mem_of_has (hi : s.has i t = true) : i ∈ ns := by
  by_contra hnot
  rw [hs.unlinked hnot] at hi
  cases hi

theorem Shape.text_ne_nil (hi : i ∈ ns) (hne : i ≠ rootId) : s.textOf i ≠ [] := by
  intro hnil
  apply hs.wf.ne_nil i hi hne
  change (s.textOf i).map _ = []
  rw [hnil, map_nil]

theorem Shape.parent_mem (hi : i ∈ ns) (hne : i ≠ rootId) :
    ∃ p ∈ ns, (s.nodes i).parent = some p := by
  obtain ⟨p, hp, hpar⟩ := hs.wf.toRooted.parent_mem hi hne
  exact ⟨p, hp, hpar⟩

theorem Shape.exists_child (hi : i ∈ ns) (hne : i ≠ rootId) :
    ∃ p ∈ ns, ∃ c, IsChild s ns p c i ∧ (s.nodes p).children.lookup c = some i := by
  obtain ⟨p, hp, hpar⟩ := hs.parent_mem hi hne
  obtain ⟨c, rest, htext⟩ := exists_cons_of_ne_nil (hs.text_ne_nil hi hne)
  have hchild : IsChild s ns p c i := ⟨hi, hne, hpar, by rw [htext, head?_cons]⟩
  exact ⟨p, hp, c, hchild, (hs.lookup hp c i).mpr hchild⟩

/-- A child is filed nowhere but in its own place. -/
theorem Shape.lookup_away (hchild : IsChild s ns p c id) {q : NodeId} {d : Char} (hq : q ∈ ns)
    (haway : q = p → d ≠ c) :
    (s.nodes q).children.lookup d = some i ↔ i ≠ id ∧ IsChild s ns q d i := by
  rw [hs.lookup hq]
  refine (and_iff_right_of_imp fun hc => ?_).symm
  rintro rfl
  exact haway (Option.some.inj (hc.parent.symm.trans hchild.parent))
    (Option.some.inj (hc.first.symm.trans hchild.first))

theorem Shape.isChild_unique (hp : p ∈ ns) (hchild : IsChild s ns p c id) :
    ¬(i ≠ id ∧ IsChild s ns p c i) := by
  rintro ⟨hi, hc⟩
  have hlook := (hs.lookup hp c i).mpr hc
  rw [(hs.lookup hp c id).mpr hchild] at hlook
  exact hi (Option.some.inj hlook).symm

theorem Shape.not_isChild_nextId : ¬IsChild s ns s.nextId c i := by
  intro hchild
  obtain ⟨p, hp, hpar⟩ := hs.parent_mem hchild.mem hchild.ne_root
  cases hpar.symm.trans hchild.parent
  exact hs.nextId_not_mem hp

theorem Shape.card_le : ns.card ≤ s.nextId := by
  have hsub : ns ⊆ Finset.range s.nextId := fun i hi => Finset.mem_range.mpr (hs.fresh hi)
  simpa using card_le_card hsub

theorem mem_childList (hp : p ∈ ns) (orders : Orders) (i : NodeId) :
    i ∈ s.childList orders p ↔ i ∈ ns ∧ i ≠ rootId ∧ (s.nodes i).parent = some p := by
  rw [childList, List.mem_filterMap]
  constructor
  · rintro ⟨c, -, hc⟩
    have hchild := (hs.lookup hp c i).mp hc
    exact ⟨hchild.mem, hchild.ne_root, hchild.parent⟩
  rintro ⟨hi, hne, hpar⟩
  obtain ⟨p', -, c, hchild, hlook⟩ := hs.exists_child hi hne
  cases hchild.parent.symm.trans hpar
  refine ⟨c, ?_, hlook⟩
  rw [orders.children.mem_visit]
  exact mem_of_lookup_eq_some hlook

theorem Shape.listsChildren (orders : Orders) :
    (s.trie ns).toForest.ListsChildren (s.childList orders) := by
  intro p hp
  refine ⟨?_, mem_childList hs hp orders⟩
  refine (orders.children.nodup_visit _).filterMap fun a b i ha hb => ?_
  have hfirst := ((hs.lookup hp a i).mp ha).first
  exact Option.some.inj (hfirst.symm.trans ((hs.lookup hp b i).mp hb).first)

theorem Shape.allNodes (orders : Orders) :
    (s.allNodes orders).Nodup ∧ ∀ i, i ∈ s.allNodes orders ↔ i ∈ ns :=
  hs.wf.toRooted.dfs_root (hs.listsChildren orders) hs.card_le

theorem hasChildWith_iff (hp : p ∈ ns) (orders : Orders) : s.hasChildWith orders p t = true ↔
      ∃ i ∈ ns, i ≠ rootId ∧ (s.nodes i).parent = some p ∧ s.has i t = true := by
  rw [hasChildWith, any_eq_true]
  constructor
  · rintro ⟨i, hi, hhas⟩
    obtain ⟨hmem, hne, hpar⟩ := (mem_childList hs hp orders i).mp hi
    exact ⟨i, hmem, hne, hpar, hhas⟩
  · rintro ⟨i, hmem, hne, hpar, hhas⟩
    exact ⟨i, (mem_childList hs hp orders i).mpr ⟨hmem, hne, hpar⟩, hhas⟩

end Read

section AddLeaf

variable {remaining : List Char}

theorem addLeaf_nodes_new (hprev : prev ≠ s.nextId) :
    (s.addLeaf t prev c remaining).nodes s.nextId =
      { children := ∅, text := .new remaining,
        tenantLastAccessTime := (∅ : Finmap _).insert t s.epoch, parent := some prev,
        lastTenant := some t } := by
  rw [addLeaf, setChild, nodes_modify_of_ne _ hprev.symm]
  exact update_self _ _ _

theorem addLeaf_nodes_prev (hprev : prev ≠ s.nextId) : (s.addLeaf t prev c remaining).nodes prev =
      { s.nodes prev with children := (s.nodes prev).children.insert c s.nextId } := by
  rw [addLeaf, setChild, nodes_modify_self]
  have hold : ∀ n, ((s.bumpEpoch.alloc n).addCount t remaining.length).nodes prev = s.nodes prev :=
    fun n => update_of_ne hprev _ _
  simp only [hold]

theorem addLeaf_nodes_old (hi : i ≠ s.nextId) (hip : i ≠ prev) :
    (s.addLeaf t prev c remaining).nodes i = s.nodes i := by
  rw [addLeaf, setChild, nodes_modify_of_ne _ hip]
  exact update_of_ne hi _ _

theorem addLeaf_keeps (hi : i ≠ s.nextId) :
    ((s.addLeaf t prev c remaining).nodes i).text = (s.nodes i).text ∧
    ((s.addLeaf t prev c remaining).nodes i).parent = (s.nodes i).parent ∧
    ((s.addLeaf t prev c remaining).nodes i).tenantLastAccessTime =
      (s.nodes i).tenantLastAccessTime := by
  by_cases hip : i = prev
  · subst hip
    rw [addLeaf_nodes_prev hi]
    exact ⟨rfl, rfl, rfl⟩
  · rw [addLeaf_nodes_old hi hip]
    exact ⟨rfl, rfl, rfl⟩

theorem trie_addLeaf (hprev : prev ≠ s.nextId) :
    (s.addLeaf t prev c remaining).trie (Insert.insert s.nextId ns) =
      (s.trie ns).attach prev s.nextId (remaining.map fun c => (c, ())) := by
  have hparent : (fun i => ((s.addLeaf t prev c remaining).nodes i).parent) =
      update (fun i => (s.nodes i).parent) s.nextId (some prev) := by
    funext i
    by_cases hi : i = s.nextId
    · subst hi
      rw [addLeaf_nodes_new hprev, update_self]
    · rw [(addLeaf_keeps hi).2.1, update_of_ne hi]
  have hlabel : (fun i => ((s.addLeaf t prev c remaining).textOf i).map fun c => (c, ())) =
      update (fun i => (s.textOf i).map fun c => (c, ())) s.nextId
        (remaining.map fun c => (c, ())) := by
    funext i
    by_cases hi : i = s.nextId
    · subst hi
      rw [textOf, addLeaf_nodes_new hprev, update_self]
      rfl
    · rw [textOf, (addLeaf_keeps hi).1, update_of_ne hi]
      rfl
  rw [trie, hparent, hlabel]
  rfl

theorem has_addLeaf (hs : s.Shape ns) (hprev : prev ∈ ns) (u : TenantId) :
    (s.addLeaf t prev c remaining).has i u = true ↔
      s.has i u = true ∨ (i = s.nextId ∧ u = t) := by
  by_cases hi : i = s.nextId
  · subst hi
    have hnot := hs.unlinked hs.nextId_not_mem u
    rw [has, addLeaf_nodes_new (hs.ne_nextId hprev), decide_eq_true_iff]
    simp [hnot, Finmap.notMem_empty]
  · rw [has, (addLeaf_keeps hi).2.2, ← has]
    simp [hi]

theorem Shape.not_child (hs : s.Shape ns) (hp : p ∈ ns)
    (hnone : (s.nodes p).children.lookup c = none) : ¬IsChild s ns p c i := by
  intro hchild
  rw [(hs.lookup hp c i).mpr hchild] at hnone
  cases hnone

theorem Shape.addLeaf (hs : s.Shape ns) (hprev : prev ∈ ns)
    (hnone : (s.nodes prev).children.lookup c = none) (hfirst : remaining.head? = some c) :
    (s.addLeaf t prev c remaining).Shape (Insert.insert s.nextId ns) := by
  have hpn := hs.ne_nextId hprev
  have hnew := hs.nextId_not_mem
  obtain ⟨rest, rfl⟩ : ∃ rest, remaining = c :: rest := by
    cases remaining with
    | nil => cases hfirst
    | cons d rest =>
      cases hfirst
      exact ⟨rest, rfl⟩
  have hroot : rootId ≠ s.nextId := hs.ne_nextId hs.root_mem
  have hischild : ∀ q d i, IsChild (s.addLeaf t prev c (c :: rest)) (Insert.insert s.nextId ns) q d i ↔
      (q = prev ∧ d = c ∧ i = s.nextId) ∨ IsChild s ns q d i := by
    intro q d i
    rw [isChild_iff, isChild_iff, textOf, textOf, Finset.mem_insert]
    by_cases hi : i = s.nextId
    · subst hi
      rw [addLeaf_nodes_new hpn]
      simp [hnew, hroot.symm, NodeText.new, eq_comm]
    · rw [(addLeaf_keeps hi).1, (addLeaf_keeps hi).2.1]
      simp [hi]
  refine ⟨?_, ?_, ?_, ?_, ?_, ?_⟩
  · rw [trie_addLeaf hpn]
    refine hs.wf.attach hprev hnew (one_dvd _) (by simp) ?_
    intro i hi hne hpar hkeys
    refine hs.not_child hprev hnone ⟨hi, hne, hpar, ?_⟩
    change Trie.keys (((s.textOf i).map fun c => (c, ())).take 1) = [c] at hkeys
    rw [← map_take] at hkeys
    cases htext : s.textOf i with
    | nil => exact absurd htext (hs.text_ne_nil hi hne)
    | cons d l =>
      rw [htext, take_succ_cons] at hkeys
      exact congrArg some (singleton_inj.mp hkeys)
  · intro q hq d i
    rw [hischild]
    by_cases hqn : q = s.nextId
    · subst hqn
      rw [addLeaf_nodes_new hpn]
      simp [hs.not_isChild_nextId, hpn.symm]
    · have hq' := mem_of_mem_insert_of_ne hq hqn
      by_cases hqp : q = prev
      · subst hqp
        rw [addLeaf_nodes_prev hpn]
        by_cases hd : d = c
        · subst hd
          have hno : ¬IsChild s ns q d i := hs.not_child hq' hnone
          simp [hno, eq_comm]
        · rw [lookup_insert_of_ne _ hd, hs.lookup hq']
          simp [hd]
      · rw [addLeaf_nodes_old hqn hqp, hs.lookup hq']
        simp [hqp]
  · rw [textOf, (addLeaf_keeps hroot).1]
    exact hs.rootText
  · rw [(addLeaf_keeps hroot).2.1]
    exact hs.rootParent
  · intro i hi
    rcases mem_insert.mp hi with rfl | hi
    · exact Nat.lt_succ_self _
    · exact (hs.fresh hi).trans (Nat.lt_succ_self _)
  · intro i hi u
    rw [Finset.mem_insert, not_or] at hi
    have hno : ¬(s.addLeaf t prev c (c :: rest)).has i u = true := by
      rw [has_addLeaf hs hprev]
      simp [hi.1, hs.unlinked hi.2]
    simpa using hno

end AddLeaf

section SplitNode

variable {k : ℕ}

theorem splitNode_nodes_child (hid : id ≠ prev) (hnew : id ≠ s.nextId) :
    (s.splitNode prev c id k).nodes id =
      { s.nodes id with text := ((s.nodes id).text.splitAtChar k).2, parent := some s.nextId } := by
  rw [splitNode, nodes_modify_self, setChild, nodes_modify_of_ne _ hid]
  have hold : ∀ n, (s.alloc n).nodes id = s.nodes id := fun n => update_of_ne hnew _ _
  simp only [hold]

theorem splitNode_nodes_prev (hid : prev ≠ id) (hnew : prev ≠ s.nextId) :
    (s.splitNode prev c id k).nodes prev =
      { s.nodes prev with children := (s.nodes prev).children.insert c s.nextId } := by
  rw [splitNode, nodes_modify_of_ne _ hid, setChild, nodes_modify_self]
  have hold : ∀ n, (s.alloc n).nodes prev = s.nodes prev := fun n => update_of_ne hnew _ _
  simp only [hold]

theorem splitNode_nodes_new (hid : id ≠ s.nextId) (hprev : prev ≠ s.nextId) :
    (s.splitNode prev c id k).nodes s.nextId =
      { children := (∅ : Finmap _).insert
          ((((s.nodes id).text.splitAtChar k).2.firstChar).getD default) id
        text := ((s.nodes id).text.splitAtChar k).1
        tenantLastAccessTime := (s.nodes id).tenantLastAccessTime
        parent := some prev, lastTenant := (s.nodes id).lastTenant } := by
  rw [splitNode, nodes_modify_of_ne _ hid.symm, setChild, nodes_modify_of_ne _ hprev.symm]
  exact update_self _ _ _

theorem splitNode_nodes_old (hi : i ≠ id) (hp : i ≠ prev) (hnew : i ≠ s.nextId) :
    (s.splitNode prev c id k).nodes i = s.nodes i := by
  rw [splitNode, nodes_modify_of_ne _ hi, setChild, nodes_modify_of_ne _ hp]
  exact update_of_ne hnew _ _

variable (hs : s.Shape ns) (hprev : prev ∈ ns) (hchild : IsChild s ns prev c id)
include hs hchild

omit hprev in
theorem Shape.ne_parent : id ≠ prev := by
  intro heq
  obtain ⟨ps, hps⟩ := hs.wf.toRooted.spine id hchild.mem
  refine hps.parent_not_mem hchild.mem hchild.ne_root (heq ▸ hchild.parent) ?_
  exact hps.self_mem hchild.ne_root

include hprev

theorem splitNode_text (i : NodeId) : (s.splitNode prev c id k).textOf i =
    if i = id then (s.textOf id).drop k
    else if i = s.nextId then (s.textOf id).take k else s.textOf i := by
  have hid := hs.ne_nextId hchild.mem
  have hpn := hs.ne_nextId hprev
  have hne := hs.ne_parent hchild
  by_cases hi : i = id
  · subst hi
    rw [if_pos rfl, textOf, splitNode_nodes_child hne hid]
    exact (NodeText.splitAtChar_text _ k).2
  rw [if_neg hi]
  by_cases hin : i = s.nextId
  · subst hin
    rw [if_pos rfl, textOf, splitNode_nodes_new hid hpn]
    exact (NodeText.splitAtChar_text _ k).1
  rw [if_neg hin]
  by_cases hip : i = prev
  · subst hip
    rw [textOf, splitNode_nodes_prev hi hin]
    rfl
  · rw [textOf, splitNode_nodes_old hi hip hin]
    rfl

theorem splitNode_parent (i : NodeId) : ((s.splitNode prev c id k).nodes i).parent =
    if i = id then some s.nextId else if i = s.nextId then some prev else (s.nodes i).parent := by
  have hid := hs.ne_nextId hchild.mem
  have hpn := hs.ne_nextId hprev
  by_cases hi : i = id
  · subst hi
    rw [if_pos rfl, splitNode_nodes_child (hs.ne_parent hchild) hid]
  rw [if_neg hi]
  by_cases hin : i = s.nextId
  · subst hin
    rw [if_pos rfl, splitNode_nodes_new hid hpn]
  rw [if_neg hin]
  by_cases hip : i = prev
  · subst hip
    rw [splitNode_nodes_prev hi hin]
  · rw [splitNode_nodes_old hi hip hin]

theorem has_splitNode (i : NodeId) (u : TenantId) : (s.splitNode prev c id k).has i u =
    if i = s.nextId then s.has id u else s.has i u := by
  have hid := hs.ne_nextId hchild.mem
  have hpn := hs.ne_nextId hprev
  by_cases hin : i = s.nextId
  · subst hin
    rw [if_pos rfl, has, splitNode_nodes_new hid hpn]
    rfl
  rw [if_neg hin]
  by_cases hi : i = id
  · subst hi
    rw [has, splitNode_nodes_child (hs.ne_parent hchild) hid]
    rfl
  by_cases hip : i = prev
  · subst hip
    rw [has, splitNode_nodes_prev hi hin]
    rfl
  · rw [has, splitNode_nodes_old hi hip hin]
    rfl

theorem trie_splitNode : (s.splitNode prev c id k).trie (Insert.insert s.nextId ns) =
    (s.trie ns).split id s.nextId k := by
  have hparent : (fun i => ((s.splitNode prev c id k).nodes i).parent) =
      update (update (fun i => (s.nodes i).parent) s.nextId
        (s.nodes id).parent) id (some s.nextId) := by
    funext i
    rw [splitNode_parent hs hprev hchild, hchild.parent]
    simp only [update_apply]
  have hlabel : (fun i => ((s.splitNode prev c id k).textOf i).map fun c => (c, ())) =
      update (update (fun i => (s.textOf i).map fun c => (c, ())) s.nextId
        (((s.textOf id).map fun c => (c, ())).take k)) id
        (((s.textOf id).map fun c => (c, ())).drop k) := by
    funext i
    rw [splitNode_text hs hprev hchild]
    simp only [update_apply]
    split
    · rw [map_drop]
    split
    · rw [map_take]
    · rfl
  rw [trie, hparent, hlabel]
  rfl

theorem isChild_splitNode (hk : 0 < k) (hlt : k < (s.textOf id).length) {q : NodeId} {d : Char} :
    IsChild (s.splitNode prev c id k) (Insert.insert s.nextId ns) q d i ↔
      (q = s.nextId ∧ i = id ∧ ((s.textOf id).drop k).head? = some d) ∨
      (q = prev ∧ i = s.nextId ∧ d = c) ∨ (i ≠ id ∧ IsChild s ns q d i) := by
  have hid := hs.ne_nextId hchild.mem
  have hroot : rootId ≠ s.nextId := hs.ne_nextId hs.root_mem
  have hpar := splitNode_parent (k := k) hs hprev hchild i
  have htext := splitNode_text (k := k) hs hprev hchild i
  rw [isChild_iff, hpar, htext, Finset.mem_insert]
  by_cases hi : i = id
  · subst hi
    simp [hchild.mem, hchild.ne_root, hid, eq_comm]
  by_cases hin : i = s.nextId
  · subst hin
    have hhead : ((s.textOf id).take k).head? = some c := by
      rw [head?_take, if_neg hk.ne', hchild.first]
    have hnot : ¬IsChild s ns q d s.nextId := fun hc => hs.nextId_not_mem hc.mem
    simp [hi, hroot.symm, hhead, hnot, eq_comm]
  · simp [isChild_iff, hi, hin]

theorem Shape.splitNode (hk : 0 < k) (hlt : k < (s.textOf id).length) :
    (s.splitNode prev c id k).Shape (Insert.insert s.nextId ns) := by
  have hid := hs.ne_nextId hchild.mem
  have hpn := hs.ne_nextId hprev
  have hroot : rootId ≠ s.nextId := hs.ne_nextId hs.root_mem
  refine ⟨?_, ?_, ?_, ?_, ?_, ?_⟩
  · rw [trie_splitNode hs hprev hchild]
    refine hs.wf.split hchild.mem hchild.ne_root hs.nextId_not_mem (one_dvd k) hk ?_
    change k < ((s.textOf id).map _).length
    rwa [length_map]
  · intro q hq d i
    rw [isChild_splitNode hs hprev hchild hk hlt]
    by_cases hqn : q = s.nextId
    · subst hqn
      obtain ⟨e, he⟩ : ∃ e, ((s.textOf id).drop k).head? = some e := by
        cases hdrop : (s.textOf id).drop k with
        | nil =>
          have := drop_eq_nil_iff.mp hdrop
          omega
        | cons e l => exact ⟨e, rfl⟩
      have hnot : ¬IsChild s ns s.nextId d i := hs.not_isChild_nextId
      have hfirst : (((s.nodes id).text.splitAtChar k).2.firstChar).getD default = e := by
        rw [NodeText.firstChar, (NodeText.splitAtChar_text _ _).2]
        change (((s.textOf id).drop k).head?).getD default = e
        rw [he, Option.getD_some]
      rw [splitNode_nodes_new hid hpn, hfirst, he]
      by_cases hd : d = e
      · subst hd
        simp [hnot, hpn.symm, eq_comm]
      · rw [lookup_insert_of_ne _ hd]
        simp [hnot, hpn.symm, Ne.symm hd]
    have hq' := mem_of_mem_insert_of_ne hq hqn
    by_cases hqp : q = prev
    · subst hqp
      rw [splitNode_nodes_prev (hs.ne_parent hchild).symm hqn]
      by_cases hd : d = c
      · subst hd
        rw [lookup_insert, or_iff_left (hs.isChild_unique hq' hchild)]
        simp [hqn, eq_comm]
      · rw [lookup_insert_of_ne _ hd, hs.lookup_away hchild hq' fun _ => hd]
        simp [hqn, hd]
    · have hlook : ((s.splitNode prev c id k).nodes q).children = (s.nodes q).children := by
        by_cases hqi : q = id
        · subst hqi
          rw [splitNode_nodes_child hqp hqn]
        · rw [splitNode_nodes_old hqi hqp hqn]
      rw [hlook, hs.lookup_away hchild hq' fun hqp' => absurd hqp' hqp]
      simp [hqn, hqp]
  · rw [splitNode_text hs hprev hchild, if_neg hchild.ne_root.symm, if_neg hroot]
    exact hs.rootText
  · rw [splitNode_parent hs hprev hchild, if_neg hchild.ne_root.symm, if_neg hroot]
    exact hs.rootParent
  · intro i hi
    rcases mem_insert.mp hi with rfl | hi
    · exact Nat.lt_succ_self _
    · exact (hs.fresh hi).trans (Nat.lt_succ_self _)
  · intro i hi u
    rw [Finset.mem_insert, not_or] at hi
    rw [has_splitNode hs hprev hchild, if_neg hi.1]
    exact hs.unlinked hi.2 u

end SplitNode

section Unlink

theorem Shape.unlink (hs : s.Shape ns) (hp : p ∈ ns) (hchild : IsChild s ns p c id)
    (hleaf : ∀ i ∈ ns, (s.nodes i).parent = some id → i = rootId)
    (hnone : ∀ t, s.has id t = false) :
    (s.modify p fun n => { n with children := n.children.erase c }).Shape (ns.erase id) := by
  set s' := s.modify p fun n => { n with children := n.children.erase c }
  have hparent : ∀ i, (s'.nodes i).parent = (s.nodes i).parent := modify_keeps _ fun _ => rfl
  have htext : s'.textOf = s.textOf := funext (modify_keeps (·.text.text) fun _ => rfl)
  have htrie : s'.trie (ns.erase id) = (s.trie ns).detach id := by
    rw [trie, htext, funext hparent]
    rfl
  have hroot : id ≠ rootId := hchild.ne_root
  have hischild : ∀ q d i, IsChild s' (ns.erase id) q d i ↔ i ≠ id ∧ IsChild s ns q d i := by
    intro q d i
    rw [isChild_iff, isChild_iff, hparent, htext, Finset.mem_erase, and_assoc]
  refine ⟨?_, ?_, ?_, ?_, ?_, ?_⟩
  · rw [htrie]
    exact hs.wf.detach hroot hleaf
  · intro q hq d i
    obtain ⟨hqid, hq⟩ := mem_erase.mp hq
    rw [hischild]
    by_cases hqp : q = p
    · subst hqp
      rw [nodes_modify_self]
      by_cases hd : d = c
      · subst hd
        rw [lookup_erase, iff_false_right (hs.isChild_unique hq hchild)]
        exact nofun
      · rw [lookup_erase_ne hd, hs.lookup_away hchild hq fun _ => hd]
    · rw [nodes_modify_of_ne _ hqp, hs.lookup_away hchild hq fun hqp' => absurd hqp' hqp]
  · rw [htext]
    exact hs.rootText
  · rw [hparent]
    exact hs.rootParent
  · exact fun hi => hs.fresh (mem_of_mem_erase hi)
  · intro i hi u
    have hhas : s'.has i u = s.has i u := has_modify fun _ => rfl
    rw [hhas]
    by_cases hid : i = id
    · rw [hid]
      exact hnone u
    · exact hs.unlinked (fun hmem => hi (mem_erase.mpr ⟨hid, hmem⟩)) u

end Unlink

end SparkInfer.Gateway.Tree
