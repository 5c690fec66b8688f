import SparkInfer.Gateway.Shape
import Mathlib.Algebra.BigOperators.Group.Finset.Basic
import Mathlib.Algebra.Order.BigOperators.Group.Finset

/-!
# Tenants and their sizes

A node that a tenant has is below nodes that it has, every node below the root has a
tenant, and the count kept for a tenant is the length of the texts of its nodes.
-/

namespace SparkInfer.Gateway.Tree

open Lib List Finset Finmap

variable {s s' : Tree} {ns ns' : Finset NodeId} {id i p prev : NodeId} {c : Char} {t u : TenantId}

structure Owned (s : Tree) (ns : Finset NodeId) : Prop extends s.Shape ns where
  sub : ∀ {i p}, i ∈ ns → (s.nodes i).parent = some p → ∀ {t}, s.has i t = true → s.has p t = true
  owner : ∀ {i}, i ∈ ns → i ≠ rootId → ∃ t, s.has i t = true

def share (s : Tree) (t : TenantId) (i : NodeId) : ℕ := if s.has i t then (s.textOf i).length else 0

def size (s : Tree) (ns : Finset NodeId) (t : TenantId) : ℕ := ∑ i ∈ ns, s.share t i

def Counted (s : Tree) (ns : Finset NodeId) (t : TenantId) : Prop :=
  s.tenantCharCount.lookup t = if s.has rootId t then some (s.size ns t) else none

structure Accounted (s : Tree) (ns : Finset NodeId) : Prop extends s.Owned ns where
  counted : ∀ t, s.Counted ns t

theorem charCount_eq (s : Tree) (i : NodeId) : (s.nodes i).text.charCount = (s.textOf i).length :=
  (s.nodes i).text.charCount_eq

theorem Owned.has_root (hs : s.Owned ns) (hi : s.has i t = true) : s.has rootId t = true := by
  obtain ⟨xs, hxs⟩ := hs.wf.toRooted.spine i (hs.mem_of_has hi)
  induction hxs with
  | root => exact hi
  | snoc hmem _ hpar _ ih => exact ih (hs.sub hmem hpar hi)

theorem size_congr (h : ∀ i ∈ ns, s'.share t i = s.share t i) : s'.size ns t = s.size ns t :=
  sum_congr rfl h

theorem size_change (s s' : Tree) (t : TenantId) (hid : id ∈ ns) (h : ∀ i ∈ ns, i ≠ id → s'.share t i = s.share t i) :
    s'.size ns t + s.share t id = s.size ns t + s'.share t id := by
  have hrest : ∑ i ∈ ns.erase id, s'.share t i = ∑ i ∈ ns.erase id, s.share t i :=
    sum_congr rfl fun i hi => h i (mem_of_mem_erase hi) (ne_of_mem_erase hi)
  have hold := add_sum_erase ns (s.share t) hid
  have hnew := add_sum_erase ns (s'.share t) hid
  rw [size, size]
  omega

theorem share_congr (htext : s'.textOf i = s.textOf i) (hhas : s'.has i t = s.has i t) :
    s'.share t i = s.share t i := by
  rw [share, share, htext, hhas]

section Same

/-- Writes that change neither links nor tenants. -/
structure SameTenants (s s' : Tree) : Prop where
  links : SameLinks s s'
  has : ∀ i t, s'.has i t = s.has i t

structure Quiet (s s' : Tree) : Prop extends SameTenants s s' where
  counts : s'.tenantCharCount = s.tenantCharCount

theorem Quiet.trans {s'' : Tree} (h : Quiet s s') (h' : Quiet s' s'') : Quiet s s'' :=
  ⟨⟨h.links.trans h'.links, fun i t => (h'.has i t).trans (h.has i t)⟩, h'.counts.trans h.counts⟩

theorem SameTenants.owned (h : SameTenants s s') (hs : s.Owned ns) : s'.Owned ns where
  toShape := h.links.shape hs.toShape fun hi t => (h.has _ t).trans (hs.unlinked hi t)
  sub hi hpar t ht := by
    rw [h.has] at ht ⊢
    exact hs.sub hi (h.links.parent _ ▸ hpar) ht
  owner hi hne := by
    obtain ⟨t, ht⟩ := hs.owner hi hne
    exact ⟨t, (h.has _ t).trans ht⟩

theorem SameTenants.size (h : SameTenants s s') : s'.size ns t = s.size ns t :=
  size_congr fun i _ => share_congr (h.links.textOf i) (h.has i t)

theorem sameTenants_counts (s : Tree) (counts : Finmap fun _ : TenantId => ℕ) :
    SameTenants s { s with tenantCharCount := counts } :=
  ⟨⟨fun _ => rfl, fun _ => rfl, fun _ => rfl, rfl⟩, fun _ _ => rfl⟩

theorem Quiet.accounted (h : Quiet s s') (hs : s.Accounted ns) : s'.Accounted ns where
  toOwned := h.toSameTenants.owned hs.toOwned
  counted t := by
    rw [Counted, h.counts, h.has, h.toSameTenants.size]
    exact hs.counted t

theorem quiet_bumpEpoch (s : Tree) : Quiet s s.bumpEpoch :=
  ⟨⟨⟨fun _ => rfl, fun _ => rfl, fun _ => rfl, rfl⟩, fun _ _ => rfl⟩, rfl⟩

theorem quiet_setAccess (hhas : s.has id t = true) (time : UInt64) :
    Quiet s (s.setAccess id t time) where
  links := sameLinks_setAccess s id t time
  has i u := by
    rw [Bool.eq_iff_iff, has_setAccess]
    refine or_iff_left_of_imp ?_
    rintro ⟨rfl, rfl⟩
    exact hhas
  counts := rfl

theorem quiet_lastTenant (s : Tree) (id : NodeId) (first : TenantId) :
    Quiet s (s.modify id fun n => { n with lastTenant := some first }) where
  links := sameLinks_modify fun _ => ⟨rfl, rfl, rfl⟩
  has _ _ := has_modify fun _ => rfl
  counts := rfl

end Same

section Attach

theorem Owned.setAccess (hs : s.Owned ns) (hid : id ∈ ns) (time : UInt64)
    (hpar : ∀ p, (s.nodes id).parent = some p → s.has p t = true) :
    (s.setAccess id t time).Owned ns := by
  have hlinks := sameLinks_setAccess s id t time
  refine ⟨hlinks.shape hs.toShape fun {i} hi u => ?_, fun {i p} hi hp u hu => ?_, fun {i} hi hne => ?_⟩
  · have hno : ¬(s.setAccess id t time).has i u = true := by
      rw [has_setAccess]
      rintro (h | ⟨rfl, -⟩)
      · rw [hs.unlinked hi] at h
        cases h
      · exact hi hid
    simpa using hno
  · rw [has_setAccess] at hu ⊢
    rw [hlinks.parent] at hp
    rcases hu with hu | ⟨rfl, rfl⟩
    · exact .inl (hs.sub hi hp hu)
    · exact .inl (hpar p hp)
  · obtain ⟨u, hu⟩ := hs.owner hi hne
    exact ⟨u, (has_setAccess s id t time i u).mpr (.inl hu)⟩

theorem share_setAccess_of_ne (time : UInt64) (h : ¬(i = id ∧ u = t)) :
    (s.setAccess id t time).share u i = s.share u i := by
  refine share_congr ((sameLinks_setAccess s id t time).textOf i) ?_
  rw [Bool.eq_iff_iff, has_setAccess]
  exact or_iff_left h

theorem lookup_addCount (s : Tree) (t u : TenantId) (n : ℕ) :
    (s.addCount t n).tenantCharCount.lookup u =
      if u = t then some ((s.tenantCharCount.lookup t).getD 0 + n)
      else s.tenantCharCount.lookup u := by
  by_cases hu : u = t
  · subst hu
    rw [if_pos rfl]
    exact lookup_insert _
  · rw [if_neg hu]
    exact lookup_insert_of_ne _ hu

theorem Accounted.attachTenant (hs : s.Accounted ns) (hid : id ∈ ns) (hne : id ≠ rootId)
    (hpar : ∀ p, (s.nodes id).parent = some p → s.has p t = true) (hroot : s.has rootId t = true) :
    (s.attachTenant t id (s.textOf id).length).Accounted ns := by
  unfold Tree.attachTenant
  split_ifs with hnot
  · exact hs
  refine ⟨((sameTenants_counts s _).owned hs.toOwned).setAccess hid 0 hpar, fun u => ?_⟩
  have hrootiff : ((s.addCount t (s.textOf id).length).setAccess id t 0).has rootId u =
      s.has rootId u := by
    rw [Bool.eq_iff_iff, has_setAccess]
    exact or_iff_left fun h => hne h.1.symm
  have hcount : ((s.addCount t (s.textOf id).length).setAccess id t 0).tenantCharCount.lookup u = _ :=
    lookup_addCount s t u _
  rw [Counted, hcount, hrootiff]
  by_cases hu : u = t
  · subst hu
    have hchange := size_change s ((s.addCount u (s.textOf id).length).setAccess id u 0) u hid
      fun i _ hi => share_setAccess_of_ne 0 fun h => hi h.1
    have hold : s.share u id = 0 := if_neg hnot
    have hnew : ((s.addCount u (s.textOf id).length).setAccess id u 0).share u id =
        (s.textOf id).length := by
      rw [share, if_pos ((has_setAccess _ id u 0 id u).mpr (.inr ⟨rfl, rfl⟩)),
        (sameLinks_setAccess _ id u 0).textOf]
      rfl
    have hcounted := hs.counted u
    rw [Counted, if_pos hroot] at hcounted
    rw [if_pos rfl, if_pos hroot, hcounted, Option.getD_some]
    exact congrArg some (by omega)
  · have hsize : ((s.addCount t (s.textOf id).length).setAccess id t 0).size ns u = s.size ns u :=
      size_congr fun i _ => share_setAccess_of_ne 0 fun h => hu h.2
    rw [if_neg hu, hsize]
    exact hs.counted u

theorem Accounted.ensureTenant (hs : s.Accounted ns) (t : TenantId) :
    (s.ensureTenant t).Accounted ns ∧ (s.ensureTenant t).has rootId t = true ∧
      SameLinks s (s.ensureTenant t) ∧
      ∀ i u, (s.ensureTenant t).has i u = true ↔ s.has i u = true ∨ (i = rootId ∧ u = t) := by
  have hcounted := hs.counted t
  unfold Tree.ensureTenant
  by_cases hroot : s.has rootId t = true
  · rw [Counted, if_pos hroot] at hcounted
    rw [if_pos hroot]
    rw [if_pos (mem_of_lookup_eq_some hcounted)]
    refine ⟨hs, hroot, ⟨fun _ => rfl, fun _ => rfl, fun _ => rfl, rfl⟩, fun i u => ?_⟩
    refine (or_iff_left_of_imp ?_).symm
    rintro ⟨rfl, rfl⟩
    exact hroot
  rw [Counted, if_neg hroot] at hcounted
  rw [if_neg hroot]
  have hmem : t ∉ (s.setAccess rootId t 0).tenantCharCount := lookup_eq_none.mp hcounted
  rw [if_neg hmem]
  have hparent : ∀ p, (s.nodes rootId).parent = some p → s.has p t = true := by
    intro p hp
    cases hs.rootParent.symm.trans hp
  have howned := hs.toOwned.setAccess hs.root_mem 0 hparent
  refine ⟨⟨(sameTenants_counts _ _).owned howned, fun u => ?_⟩, ?_, ?_, ?_⟩
  · by_cases hu : u = t
    · subst hu
      have hsize : (s.setAccess rootId u 0).size ns u = 0 := by
        refine sum_eq_zero fun i _ => ?_
        rw [share]
        split_ifs with hi
        · rcases (has_setAccess s rootId u 0 i u).mp hi with hi | ⟨rfl, -⟩
          · exact absurd (hs.toOwned.has_root hi) hroot
          · rw [(sameLinks_setAccess s rootId u 0).textOf, hs.rootText]
            rfl
        · rfl
      have hhas : (s.setAccess rootId u 0).has rootId u = true :=
        (has_setAccess s rootId u 0 rootId u).mpr (.inr ⟨rfl, rfl⟩)
      change lookup u (s.tenantCharCount.insert u 0) =
        if (s.setAccess rootId u 0).has rootId u then some ((s.setAccess rootId u 0).size ns u)
        else none
      rw [lookup_insert, if_pos hhas, hsize]
    · have hhas : (s.setAccess rootId t 0).has rootId u = s.has rootId u := by
        rw [Bool.eq_iff_iff, has_setAccess]
        exact or_iff_left fun h => hu h.2
      have hsize : (s.setAccess rootId t 0).size ns u = s.size ns u :=
        size_congr fun i _ => share_setAccess_of_ne 0 fun h => hu h.2
      change lookup u (s.tenantCharCount.insert t 0) =
        if (s.setAccess rootId t 0).has rootId u then some ((s.setAccess rootId t 0).size ns u)
        else none
      rw [lookup_insert_of_ne _ hu, hhas, hsize]
      exact hs.counted u
  · exact (has_setAccess s rootId t 0 rootId t).mpr (.inr ⟨rfl, rfl⟩)
  · exact (sameLinks_setAccess s rootId t 0).trans (sameTenants_counts _ _).links
  · exact has_setAccess s rootId t 0

end Attach

section Insert

variable {k : ℕ} {remaining : List Char}

theorem Owned.splitNode (hs : s.Owned ns) (hprev : prev ∈ ns) (hchild : IsChild s ns prev c id)
    (hk : 0 < k) (hlt : k < (s.textOf id).length) :
    (s.splitNode prev c id k).Owned (Insert.insert s.nextId ns) := by
  have hsh := hs.toShape
  have hid := hs.ne_nextId hchild.mem
  have hhas := has_splitNode (k := k) hsh hprev hchild
  have hpar := splitNode_parent (k := k) hsh hprev hchild
  refine ⟨hsh.splitNode hprev hchild hk hlt, fun {i p} hi hp u hu => ?_, fun {i} hi hne => ?_⟩
  · rw [hpar] at hp
    rw [hhas] at hu ⊢
    by_cases hin : i = s.nextId
    · -- the new node has the tenants of the one it was cut from
      rw [if_neg (hin ▸ hid.symm), if_pos hin] at hp
      rw [if_pos hin] at hu
      cases hp
      rw [if_neg (hs.ne_nextId hprev)]
      exact hs.sub hchild.mem hchild.parent hu
    · rw [if_neg hin] at hu
      have hi := mem_of_mem_insert_of_ne hi hin
      by_cases hiid : i = id
      · rw [if_pos hiid] at hp
        cases hp
        rw [if_pos rfl]
        exact hiid ▸ hu
      · rw [if_neg hiid, if_neg hin] at hp
        have hpu := hs.sub hi hp hu
        rwa [if_neg (hs.ne_nextId (hs.mem_of_has hpu))]
  · by_cases hin : i = s.nextId
    · obtain ⟨u, hu⟩ := hs.owner hchild.mem hchild.ne_root
      refine ⟨u, ?_⟩
      rwa [hhas, if_pos hin]
    · obtain ⟨u, hu⟩ := hs.owner (mem_of_mem_insert_of_ne hi hin) hne
      refine ⟨u, ?_⟩
      rwa [hhas, if_neg hin]

theorem size_splitNode (hs : s.Shape ns) (hprev : prev ∈ ns) (hchild : IsChild s ns prev c id)
    (hlt : k < (s.textOf id).length) :
    (s.splitNode prev c id k).size (Insert.insert s.nextId ns) u = s.size ns u := by
  have hid := hs.ne_nextId hchild.mem
  have hhas := has_splitNode (k := k) hs hprev hchild
  have htext := splitNode_text (k := k) hs hprev hchild
  have hchange := size_change s (s.splitNode prev c id k) u hchild.mem fun i hi hiid =>
    share_congr (by rw [htext, if_neg hiid, if_neg (hs.ne_nextId hi)])
      (by rw [hhas, if_neg (hs.ne_nextId hi)])
  have hnew : (s.splitNode prev c id k).share u s.nextId = if s.has id u then k else 0 := by
    rw [share, hhas, if_pos rfl, htext, if_neg hid.symm, if_pos rfl, length_take,
      min_eq_left hlt.le]
  have hold : (s.splitNode prev c id k).share u id =
      if s.has id u then (s.textOf id).length - k else 0 := by
    rw [share, hhas, if_neg hid, htext, if_pos rfl, length_drop]
  rw [size, sum_insert hs.nextId_not_mem, ← size, hnew]
  rw [hold, share] at hchange
  split at hchange
  · rw [if_pos ‹_›]
    omega
  · rw [if_neg ‹_›]
    omega

theorem Accounted.splitNode (hs : s.Accounted ns) (hprev : prev ∈ ns)
    (hchild : IsChild s ns prev c id) (hk : 0 < k) (hlt : k < (s.textOf id).length) :
    (s.splitNode prev c id k).Accounted (Insert.insert s.nextId ns) := by
  refine ⟨hs.toOwned.splitNode hprev hchild hk hlt, fun u => ?_⟩
  rw [Counted, size_splitNode hs.toShape hprev hchild hlt, has_splitNode hs.toShape hprev hchild,
    if_neg (hs.ne_nextId hs.root_mem)]
  exact hs.counted u

theorem Accounted.addLeaf (hs : s.Accounted ns) (hprev : prev ∈ ns) (ht : s.has prev t = true)
    (hnone : (s.nodes prev).children.lookup c = none) (hfirst : remaining.head? = some c) :
    (s.addLeaf t prev c remaining).Accounted (Insert.insert s.nextId ns) := by
  have hsh := hs.toShape
  have hpn := hs.ne_nextId hprev
  have hhas : ∀ i u, (s.addLeaf t prev c remaining).has i u = true ↔ _ :=
    fun i u => has_addLeaf hsh hprev u
  refine ⟨⟨hsh.addLeaf hprev hnone hfirst, fun {i p} hi hp u hu => ?_, fun {i} hi hne => ?_⟩,
    fun u => ?_⟩
  · rw [hhas] at hu ⊢
    by_cases hin : i = s.nextId
    · subst hin
      rw [addLeaf_nodes_new hpn] at hp
      cases hp
      rcases hu with hu | ⟨-, rfl⟩
      · exact absurd (hs.mem_of_has hu) hs.nextId_not_mem
      · exact .inl ht
    · rw [(addLeaf_keeps hin).2.1] at hp
      have hu := hu.resolve_right fun h => hin h.1
      exact .inl (hs.sub (mem_of_mem_insert_of_ne hi hin) hp hu)
  · by_cases hin : i = s.nextId
    · exact ⟨t, (hhas i t).mpr (.inr ⟨hin, rfl⟩)⟩
    · obtain ⟨u, hu⟩ := hs.owner (mem_of_mem_insert_of_ne hi hin) hne
      exact ⟨u, (hhas i u).mpr (.inl hu)⟩
  have hroot : (s.addLeaf t prev c remaining).has rootId u = s.has rootId u := by
    rw [Bool.eq_iff_iff, hhas]
    exact or_iff_left fun h => hs.ne_nextId hs.root_mem h.1
  have hold : ∑ i ∈ ns, (s.addLeaf t prev c remaining).share u i = s.size ns u := by
    refine sum_congr rfl fun i hi => share_congr ?_ ?_
    · rw [textOf, (addLeaf_keeps (hs.ne_nextId hi)).1]
      rfl
    · rw [Bool.eq_iff_iff, hhas]
      exact or_iff_left fun h => hs.ne_nextId hi h.1
  have hcount : (s.addLeaf t prev c remaining).tenantCharCount.lookup u = _ :=
    lookup_addCount s t u remaining.length
  have hnothas : s.has s.nextId u = false := hs.unlinked hs.nextId_not_mem u
  rw [Counted, hcount, hroot, size, sum_insert hs.nextId_not_mem, hold]
  by_cases hu : u = t
  · subst hu
    have hshare : (s.addLeaf u prev c remaining).share u s.nextId = remaining.length := by
      rw [share, if_pos ((hhas s.nextId u).mpr (.inr ⟨rfl, rfl⟩)), textOf, addLeaf_nodes_new hpn]
      rfl
    have hcounted := hs.counted u
    have hru := hs.toOwned.has_root ht
    rw [Counted, if_pos hru] at hcounted
    rw [if_pos rfl, if_pos hru, hcounted, hshare, Option.getD_some, Nat.add_comm]
  · have hshare : (s.addLeaf t prev c remaining).share u s.nextId = 0 := by
      rw [share, if_neg]
      rw [hhas]
      rintro (h | h)
      · cases hnothas.symm.trans h
      · exact hu h.2
    rw [if_neg hu, hshare, zero_add]
    exact hs.counted u

end Insert

section Drop

def LeafFor (s : Tree) (ns : Finset NodeId) (id : NodeId) (t : TenantId) : Prop :=
  s.has id t = true ∧ ∀ i ∈ ns, (s.nodes i).parent = some id → s.has i t = false

theorem Shape.isLeafFor_iff (hs : s.Shape ns) (orders : Orders) :
    s.isLeafFor orders id t = true ↔ s.LeafFor ns id t := by
  rw [isLeafFor, Bool.and_eq_true]
  refine and_congr_right fun hid => ?_
  rw [Bool.not_eq_true', ← Bool.not_eq_true, hasChildWith_iff hs (hs.mem_of_has hid)]
  constructor
  · intro hno i hi hpar
    rw [← Bool.not_eq_true]
    intro hit
    refine hno ⟨i, hi, ?_, hpar, hit⟩
    rintro rfl
    cases hs.rootParent.symm.trans hpar
  · rintro hall ⟨i, hi, -, hpar, hit⟩
    rw [hall i hi hpar] at hit
    cases hit

theorem Owned.exists_leafFor (hs : s.Owned ns) (hi : s.has i t = true) : ∃ x, s.LeafFor ns x t := by
  by_cases honly : ∃ j, j ≠ rootId ∧ s.has j t = true
  · obtain ⟨j, hj, hjt⟩ := honly
    -- the nodes of the tenant form a tree of their own
    let own : Forest NodeId :=
      { root := rootId, nodes := ns.filter fun i => s.has i t = true,
        parent := fun i => (s.nodes i).parent }
    have hmem : ∀ {i}, i ∈ own.nodes ↔ s.has i t = true := by
      intro i
      rw [Finset.mem_filter]
      exact and_iff_right_of_imp hs.mem_of_has
    have hspine : ∀ {i xs}, (s.trie ns).Spine i xs → s.has i t = true → own.Spine i xs := by
      intro i xs hxs
      induction hxs with
      | root => exact fun _ => .root
      | snoc hin hne hpar _ ih =>
        exact fun hit => .snoc (hmem.mpr hit) hne hpar (ih (hs.sub hin hpar hit))
    have hrooted : own.Rooted := by
      refine ⟨hmem.mpr (hs.has_root hi), fun i hit => ?_⟩
      obtain ⟨xs, hxs⟩ := hs.wf.toRooted.spine i (hs.mem_of_has (hmem.mp hit))
      exact ⟨xs, hspine hxs (hmem.mp hit)⟩
    obtain ⟨x, hx, -, -, hleaf⟩ := hrooted.exists_leaf (hmem.mpr hjt) hj
    refine ⟨x, hmem.mp hx, fun i _ hpar => ?_⟩
    rw [← Bool.not_eq_true]
    intro hit
    have hroot : i = rootId := hleaf i (hmem.mpr hit) hpar
    rw [hroot, hs.rootParent] at hpar
    cases hpar
  · refine ⟨rootId, hs.has_root hi, fun j _ hpar => ?_⟩
    rw [← Bool.not_eq_true]
    intro hjt
    refine honly ⟨j, ?_, hjt⟩
    rintro rfl
    cases hs.rootParent.symm.trans hpar

/-- What taking a tenant from a node does. -/
structure Dropped (s : Tree) (ns : Finset NodeId) (id : NodeId) (t : TenantId) (s' : Tree)
    (ns' : Finset NodeId) : Prop where
  owned : s'.Owned ns'
  sub : ns' ⊆ ns
  has : ∀ i u, s'.has i u = true ↔ s.has i u = true ∧ ¬(i = id ∧ u = t)
  text : ∀ i, s'.textOf i = s.textOf i
  parent : ∀ i, (s'.nodes i).parent = (s.nodes i).parent
  counts : s'.tenantCharCount = s.tenantCharCount
  keys : ∀ i, (s'.nodes i).tenantLastAccessTime.keys =
    if i = id then (s.nodes i).tenantLastAccessTime.keys.erase t
    else (s.nodes i).tenantLastAccessTime.keys
  path : ∀ {i l}, i ∈ ns' → (s.trie ns).Path i l → (s'.trie ns').Path i l

theorem has_erase (i : NodeId) (u : TenantId) :
    (s.modify id fun n => { n with tenantLastAccessTime := n.tenantLastAccessTime.erase t }).has i u =
      true ↔ s.has i u = true ∧ ¬(i = id ∧ u = t) := by
  by_cases hi : i = id
  · subst hi
    rw [has, nodes_modify_self, decide_eq_true_iff, has]
    simp [and_comm]
  · rw [has, nodes_modify_of_ne _ hi, ← has]
    simp [hi]

theorem keys_erase (i : NodeId) : ((s.modify id fun n =>
        { n with tenantLastAccessTime := n.tenantLastAccessTime.erase t }).nodes
      i).tenantLastAccessTime.keys =
    if i = id then (s.nodes i).tenantLastAccessTime.keys.erase t
    else (s.nodes i).tenantLastAccessTime.keys := by
  by_cases hi : i = id
  · subst hi
    rw [nodes_modify_self, if_pos rfl]
    exact keys_erase t _
  · rw [nodes_modify_of_ne _ hi, if_neg hi]

theorem Owned.dropTenant (hs : s.Owned ns) (hleaf : s.LeafFor ns id t) :
    ∃ ns', Dropped s ns id t (s.dropTenant id t) ns' := by
  have hid : id ∈ ns := hs.mem_of_has hleaf.1
  set s₁ := s.modify id fun n =>
    { n with tenantLastAccessTime := n.tenantLastAccessTime.erase t }
  have hlinks : SameLinks s s₁ := sameLinks_modify fun _ => ⟨rfl, rfl, rfl⟩
  have hhas : ∀ i u, s₁.has i u = true ↔ s.has i u = true ∧ ¬(i = id ∧ u = t) := has_erase
  have hshape : s₁.Shape ns := hlinks.shape hs.toShape fun {i} hi u => by
    rw [← Bool.not_eq_true, hhas]
    intro h
    rw [hs.unlinked hi] at h
    exact absurd h.1 (by decide)
  have hsub : ∀ {i p}, i ∈ ns → (s₁.nodes i).parent = some p → ∀ {u}, s₁.has i u = true →
      s₁.has p u = true := by
    intro i p hi hpar u hu
    rw [hlinks.parent] at hpar
    rw [hhas] at hu ⊢
    refine ⟨hs.sub hi hpar hu.1, ?_⟩
    rintro ⟨rfl, rfl⟩
    rw [hleaf.2 i hi hpar] at hu
    exact absurd hu.1 (by decide)
  have howner : ∀ {i}, i ∈ ns → i ≠ rootId → i ≠ id → ∃ u, s₁.has i u = true := by
    intro i hi hne hiid
    obtain ⟨u, hu⟩ := hs.owner hi hne
    exact ⟨u, (hhas i u).mpr ⟨hu, fun h => hiid h.1⟩⟩
  have hstay (hown : id ≠ rootId → ∃ u, s₁.has id u = true) : Dropped s ns id t s₁ ns := by
    refine ⟨⟨hshape, hsub, fun {i} hi hne => ?_⟩, Finset.Subset.refl _, hhas, hlinks.textOf,
      hlinks.parent, rfl, keys_erase, fun _ hl => hlinks.trie ▸ hl⟩
    by_cases hiid : i = id
    · subst hiid
      exact hown hne
    · exact howner hi hne hiid
  have hmemkeys : ∀ u, u ∈ (s₁.nodes id).tenantLastAccessTime.keys ↔ s₁.has id u = true := by
    intro u
    rw [Finmap.mem_keys, has, decide_eq_true_iff]
  unfold Tree.dropTenant
  dsimp only
  split_ifs with hempty
  · have hnone : ∀ u, s₁.has id u = false := by
      intro u
      rw [← Bool.not_eq_true, ← hmemkeys, hempty.2]
      exact notMem_empty u
    by_cases hroot : id = rootId
    · have hpar : (s₁.nodes id).parent = none := by
        rw [hlinks.parent, hroot]
        exact hs.rootParent
      rw [hpar]
      exact ⟨ns, hstay (absurd hroot)⟩
    obtain ⟨p, hp, c, hchild, -⟩ := hshape.exists_child hid hroot
    have hfirst : (s₁.nodes id).text.firstChar = some c := hchild.first
    rw [hchild.parent, hfirst]
    have hchildless : ∀ i ∈ ns, (s₁.nodes i).parent = some id → i = rootId := by
      intro i hi hpar
      by_contra hne
      obtain ⟨u, hu⟩ := hs.owner hi hne
      have hidu := hsub hi hpar ((hhas i u).mpr ⟨hu, ?_⟩)
      · rw [hnone u] at hidu
        cases hidu
      · rintro ⟨rfl, -⟩
        obtain ⟨xs, hxs⟩ := hshape.wf.toRooted.spine i hi
        exact hxs.parent_not_mem hi hne hpar (hxs.self_mem hne)
    have hun := hshape.unlink hp hchild hchildless hnone
    set s₂ := s₁.modify p fun n => { n with children := n.children.erase c }
    have hparent : ∀ i, (s₂.nodes i).parent = (s₁.nodes i).parent := modify_keeps _ fun _ => rfl
    have htimes : ∀ i, (s₂.nodes i).tenantLastAccessTime = (s₁.nodes i).tenantLastAccessTime :=
      modify_keeps _ fun _ => rfl
    have hhas₂ : ∀ i u, s₂.has i u = s₁.has i u := fun i u => has_modify fun _ => rfl
    have htext : ∀ i, s₂.textOf i = s₁.textOf i := modify_keeps (·.text.text) fun _ => rfl
    refine ⟨ns.erase id, ⟨hun, fun {i q} hi hq u hu => ?_, fun {i} hi hne => ?_⟩,
      erase_subset _ _, fun i u => hhas₂ i u ▸ hhas i u, fun i => (htext i).trans (hlinks.textOf i),
      fun i => (hparent i).trans (hlinks.parent i), rfl, fun i => htimes i ▸ keys_erase i,
      fun {i l} hi hl => ?_⟩
    · rw [hhas₂] at hu ⊢
      rw [hparent] at hq
      exact hsub (Finset.mem_of_mem_erase hi) hq hu
    · obtain ⟨u, hu⟩ := howner (Finset.mem_of_mem_erase hi) hne (ne_of_mem_erase hi)
      exact ⟨u, (hhas₂ i u).trans hu⟩
    have htrie : s₂.trie (ns.erase id) = (s.trie ns).detach id := by
      rw [← hlinks.trie, trie, funext hparent, funext htext]
      rfl
    rw [htrie]
    refine Trie.Path.detach (fun j hj hpar => ?_) hl (ne_of_mem_erase hi)
    exact hchildless j hj ((hlinks.parent j).trans hpar)
  · refine ⟨ns, hstay fun hroot => ?_⟩
    rw [not_and_or] at hempty
    rcases hempty with hchildren | hkeys
    · -- a child has a tenant that its parent has too, and it is not the dropped one
      obtain ⟨c, j, hj⟩ := exists_lookup hchildren
      have hchild := (hshape.lookup hid c j).mp hj
      have hpar : (s.nodes j).parent = some id := (hlinks.parent j).symm.trans hchild.parent
      obtain ⟨u, hu⟩ := hs.owner hchild.mem hchild.ne_root
      refine ⟨u, (hhas id u).mpr ⟨hs.sub hchild.mem hpar hu, ?_⟩⟩
      rintro ⟨-, rfl⟩
      rw [hleaf.2 j hchild.mem hpar] at hu
      cases hu
    · obtain ⟨u, hu⟩ := nonempty_iff_ne_empty.mpr hkeys
      exact ⟨u, (hmemkeys u).mp hu⟩

end Drop

section Used

theorem lookup_foldl_add {l : List TenantId} (hl : l.Nodup) (n : ℕ)
    (used : Finmap fun _ : TenantId => ℕ) :
    (l.foldl (fun used t => used.insert t ((used.lookup t).getD 0 + n)) used).lookup t =
      if t ∈ l then some ((used.lookup t).getD 0 + n) else used.lookup t := by
  induction l generalizing used with
  | nil => rfl
  | cons u l ih =>
    obtain ⟨hu, hl⟩ := nodup_cons.mp hl
    rw [foldl_cons, ih hl]
    by_cases htu : t = u
    · subst htu
      rw [if_neg hu, if_pos List.mem_cons_self]
      exact lookup_insert _
    · rw [lookup_insert_of_ne _ htu]
      simp only [List.mem_cons, htu, false_or]

theorem lookup_addUsed (orders : Orders) (used : Finmap fun _ : TenantId => ℕ)
    : (s.addUsed orders used i).lookup t =
      if s.has i t = true then some ((used.lookup t).getD 0 + s.share t i) else used.lookup t := by
  have hmem : t ∈ orders.tenants.visit (s.nodes i).tenantLastAccessTime.keys ↔ s.has i t = true := by
    rw [orders.tenants.mem_visit, Finmap.mem_keys, has, decide_eq_true_iff]
  rw [addUsed, lookup_foldl_add (orders.tenants.nodup_visit _), charCount_eq]
  by_cases hi : s.has i t = true
  · rw [if_pos (hmem.mpr hi), if_pos hi, share, if_pos hi]
  · rw [if_neg (hmem.not.mpr hi), if_neg hi]

theorem lookup_foldl_addUsed (orders : Orders) (l : List NodeId)
    (used : Finmap fun _ : TenantId => ℕ) : (l.foldl (s.addUsed orders) used).lookup t =
      if ∃ i ∈ l, s.has i t = true then some ((used.lookup t).getD 0 + (l.map (s.share t)).sum)
      else used.lookup t := by
  induction l generalizing used with
  | nil => simp
  | cons i l ih =>
    rw [foldl_cons, ih, lookup_addUsed, List.map_cons, List.sum_cons]
    by_cases hi : s.has i t = true
    · rw [if_pos hi, if_pos (⟨i, mem_cons_self, hi⟩ : ∃ j ∈ i :: l, s.has j t = true),
        Option.getD_some]
      split_ifs with hno
      · rw [add_assoc]
      have hzero : (l.map (s.share t)).sum = 0 := by
        refine sum_eq_zero fun n hn => ?_
        obtain ⟨j, hj, rfl⟩ := mem_map.mp hn
        exact if_neg fun hjt => hno ⟨j, hj, hjt⟩
      rw [hzero, add_zero]
    · rw [if_neg hi, share, if_neg hi, zero_add]
      simp only [List.mem_cons, exists_eq_or_imp, hi, Bool.false_eq_true, false_or]

theorem Accounted.getUsedSizePerTenant (hs : s.Accounted ns) (orders : Orders) :
    s.getUsedSizePerTenant orders = s.tenantCharCount := by
  refine ext_lookup fun t => ?_
  obtain ⟨hnodup, hmem⟩ := hs.toShape.allNodes orders
  have hns : (s.allNodes orders).toFinset = ns := by
    ext i
    rw [mem_toFinset, hmem]
  have hcounted := hs.counted t
  rw [Tree.getUsedSizePerTenant, lookup_foldl_addUsed, hcounted]
  have hroot : (∃ i ∈ s.allNodes orders, s.has i t = true) ↔ s.has rootId t = true := by
    constructor
    · rintro ⟨i, -, hi⟩
      exact hs.toOwned.has_root hi
    · exact fun h => ⟨rootId, (hmem _).mpr hs.root_mem, h⟩
  simp only [hroot]
  split
  · rw [size, ← hns, sum_toFinset _ hnodup, lookup_empty, Option.getD_none, Nat.zero_add]
  · exact lookup_empty t

end Used

end SparkInfer.Gateway.Tree
