import SparkInfer.Gateway.Accounts

/-!
# Eviction and removal

Both take a tenant from its last nodes and go on with the parents that become last
nodes.  The work list always has the last nodes that still have to go; every
iteration uses up an entry or a pair of a node and a tenant.
-/

namespace SparkInfer.Gateway.Tree

open Lib List Finset Finmap

variable {s s' : Tree} {ns ns' : Finset NodeId} {id i p : NodeId} {t u : TenantId}
variable {m : ℕ} {e : EvictionEntry} {pq rest : List EvictionEntry}

section Dropped

variable (hleaf : s.LeafFor ns id t) (hd : Dropped s ns id t s' ns')
include hd

theorem Dropped.share_of_ne (h : ¬(i = id ∧ u = t)) : s'.share u i = s.share u i := by
  refine share_congr (hd.text i) ?_
  rw [Bool.eq_iff_iff, hd.has]
  exact and_iff_left h

theorem Dropped.share_self : s'.share t id = 0 := by
  rw [share, if_neg]
  rw [hd.has]
  exact fun h => h.2 ⟨rfl, rfl⟩

theorem Dropped.size_eq : s'.size ns' u = s'.size ns u := by
  refine sum_subset hd.sub fun i _ hi => ?_
  rw [share, hd.owned.unlinked hi]
  rfl

theorem Dropped.size_other (hu : u ≠ t) : s'.size ns' u = s.size ns u := by
  rw [hd.size_eq]
  exact size_congr fun i _ => hd.share_of_ne fun h => hu h.2

include hleaf

theorem Dropped.size_self (hs : s.Owned ns) : s'.size ns' t + (s.textOf id).length = s.size ns t := by
  have hchange := size_change s s' t (hs.mem_of_has hleaf.1) fun i _ hi =>
    hd.share_of_ne fun h => hi h.1
  have hshare : s.share t id = (s.textOf id).length := if_pos hleaf.1
  rw [hd.share_self, hshare, add_zero] at hchange
  rw [hd.size_eq, hchange]

omit hleaf in
theorem Dropped.leafFor (hi : s'.LeafFor ns' i u) :
    (s.LeafFor ns i u ∧ ¬(i = id ∧ u = t)) ∨ (u = t ∧ (s.nodes id).parent = some i) := by
  obtain ⟨hiu, hchild⟩ := hi
  obtain ⟨hiu, hne⟩ := (hd.has i u).mp hiu
  by_cases hpar : u = t ∧ (s.nodes id).parent = some i
  · exact .inr hpar
  refine .inl ⟨⟨hiu, fun j hj hjpar => ?_⟩, hne⟩
  rw [← Bool.not_eq_true]
  intro hju
  have hj' : s'.has j u = true := by
    rw [hd.has]
    refine ⟨hju, ?_⟩
    rintro ⟨rfl, rfl⟩
    exact hpar ⟨rfl, hjpar⟩
  have hno := hchild j (hd.owned.mem_of_has hj') ((hd.parent j).trans hjpar)
  cases hno.symm.trans hj'

omit hleaf in
theorem Dropped.leafFor_of (hi : s.LeafFor ns i u) (hne : ¬(i = id ∧ u = t)) :
    s'.LeafFor ns' i u := by
  refine ⟨(hd.has i u).mpr ⟨hi.1, hne⟩, fun j hj hpar => ?_⟩
  rw [← Bool.not_eq_true, hd.has]
  intro hju
  rw [hi.2 j (hd.sub hj) ((hd.parent j).symm.trans hpar)] at hju
  exact absurd hju.1 (by decide)

omit hd in
theorem LeafFor.parent_not_leaf (hid : id ∈ ns) (hpar : (s.nodes id).parent = some p) :
    ¬s.LeafFor ns p t := by
  intro hp
  have hno := hp.2 id hid hpar
  cases hleaf.1.symm.trans hno

omit hleaf in
theorem Dropped.newLeaf_iff (orders : Orders) :
    s'.newLeaf orders id t = some p ↔ (s.nodes id).parent = some p ∧ s'.LeafFor ns' p t := by
  rw [newLeaf, Option.filter_eq_some_iff, hd.parent, hd.owned.toShape.isLeafFor_iff orders]

end Dropped

section Remove

theorem Owned.not_has (hs : s.Owned ns) (hno : ∀ x, ¬s.LeafFor ns x t) (i : NodeId) (u : TenantId) :
    s.has i u = true ↔ s.has i u = true ∧ u ≠ t := by
  refine (and_iff_left_of_imp ?_).symm
  rintro hiu rfl
  obtain ⟨x, hx⟩ := hs.exists_leafFor hiu
  exact hno x hx

/-- The loop of `remove_tenant`: the queue has the last nodes of the tenant, and each
iteration takes the tenant from one node. -/
theorem Owned.removeLoop (hs : s.Owned ns) (orders : Orders) (queue : List NodeId) (fuel : ℕ)
    (hnodup : queue.Nodup) (hqueue : ∀ i, i ∈ queue ↔ s.LeafFor ns i t)
    (hfuel : (ns.filter fun i => s.has i t = true).card ≤ fuel) :
    ∃ ns', (removeLoop orders t fuel s queue).Owned ns' ∧ ns' ⊆ ns ∧
      (∀ i u, (removeLoop orders t fuel s queue).has i u = true ↔ s.has i u = true ∧ u ≠ t) ∧
      (∀ u, u ≠ t → (removeLoop orders t fuel s queue).size ns' u = s.size ns u) ∧
      (removeLoop orders t fuel s queue).tenantCharCount = s.tenantCharCount ∧
      ∀ {i l}, i ∈ ns' → (s.trie ns).Path i l →
        ((removeLoop orders t fuel s queue).trie ns').Path i l := by
  induction fuel generalizing s ns queue with
  | zero =>
    have hno : ∀ x, ¬s.LeafFor ns x t := by
      intro x hx
      have hpos : 0 < (ns.filter fun i => s.has i t = true).card :=
        card_pos.mpr ⟨x, mem_filter.mpr ⟨hs.mem_of_has hx.1, hx.1⟩⟩
      omega
    exact ⟨ns, hs, Finset.Subset.refl _, hs.not_has hno, fun _ _ => rfl, rfl, fun _ hl => hl⟩
  | succ fuel ih =>
    cases queue with
    | nil =>
      have hno : ∀ x, ¬s.LeafFor ns x t := fun x hx => not_mem_nil ((hqueue x).mpr hx)
      exact ⟨ns, hs, Finset.Subset.refl _, hs.not_has hno, fun _ _ => rfl, rfl, fun _ hl => hl⟩
    | cons curr queue =>
      have hleaf := (hqueue curr).mp mem_cons_self
      have hcurr := hs.mem_of_has hleaf.1
      obtain ⟨hnot, hnodup⟩ := nodup_cons.mp hnodup
      obtain ⟨ns₁, hd⟩ := hs.dropTenant hleaf
      have hmem₁ : ∀ i, i ∈ queue ++ ((s.dropTenant curr t).newLeaf orders curr t).toList ↔
          (s.dropTenant curr t).LeafFor ns₁ i t := by
        intro i
        rw [mem_append, Option.mem_toList, hd.newLeaf_iff]
        constructor
        · rintro (hi | ⟨-, hi⟩)
          · refine hd.leafFor_of ((hqueue i).mp (mem_cons_of_mem _ hi)) ?_
            rintro ⟨rfl, -⟩
            exact hnot hi
          · exact hi
        · intro hi
          rcases hd.leafFor hi with ⟨hold, hne⟩ | ⟨-, hpar⟩
          · refine .inl ((mem_cons.mp ((hqueue i).mpr hold)).resolve_left ?_)
            rintro rfl
            exact hne ⟨rfl, rfl⟩
          · exact .inr ⟨hpar, hi⟩
      have hnodup₁ : (queue ++ ((s.dropTenant curr t).newLeaf orders curr t).toList).Nodup := by
        refine List.Nodup.append hnodup (by cases Tree.newLeaf _ _ _ _ <;> simp) fun i hi hnew => ?_
        rw [Option.mem_toList, hd.newLeaf_iff] at hnew
        exact hleaf.parent_not_leaf hcurr hnew.1 ((hqueue i).mp (mem_cons_of_mem _ hi))
      have hcard : (ns₁.filter fun i => (s.dropTenant curr t).has i t = true).card ≤ fuel := by
        have hsub : (ns₁.filter fun i => (s.dropTenant curr t).has i t = true) ⊆
            (ns.filter fun i => s.has i t = true).erase curr := by
          intro i hi
          obtain ⟨him, hit⟩ := mem_filter.mp hi
          obtain ⟨hit, hne⟩ := (hd.has i t).mp hit
          exact mem_erase.mpr ⟨fun h => hne ⟨h, rfl⟩, mem_filter.mpr ⟨hd.sub him, hit⟩⟩
        have hle := card_le_card hsub
        have hone := card_erase_add_one (s := ns.filter fun i => s.has i t = true)
          (mem_filter.mpr ⟨hcurr, hleaf.1⟩)
        omega
      obtain ⟨ns', howned, hsub, hhas, hsize, hcounts, hpath⟩ := ih hd.owned _ hnodup₁ hmem₁ hcard
      rw [Tree.removeLoop]
      refine ⟨ns', howned, hsub.trans hd.sub, fun i u => ?_, fun u hu => ?_, hcounts.trans hd.counts,
        fun {i l} hi hl => hpath hi (hd.path (hsub hi) hl)⟩
      · rw [hhas, hd.has]
        exact and_congr_left fun hu => and_iff_left fun h => hu h.2
      · rw [hsize u hu, hd.size_other hu]

end Remove

section Evict

def pairs (s : Tree) (ns : Finset NodeId) : ℕ :=
  ∑ i ∈ ns, (s.nodes i).tenantLastAccessTime.keys.card

theorem mem_tenant_keys : t ∈ (s.nodes i).tenantLastAccessTime.keys ↔ s.has i t = true := by
  rw [Finmap.mem_keys, has, decide_eq_true_iff]

theorem Dropped.pairs_lt (hs : s.Owned ns) (hleaf : s.LeafFor ns id t)
    (hd : Dropped s ns id t s' ns') : s'.pairs ns' < s.pairs ns := by
  have hle : s'.pairs ns' ≤ s'.pairs ns := sum_le_sum_of_subset hd.sub
  refine hle.trans_lt (sum_lt_sum (fun i _ => ?_) ⟨id, hs.mem_of_has hleaf.1, ?_⟩)
  · rw [hd.keys]
    split
    · exact card_le_card (erase_subset _ _)
    · exact le_rfl
  · rw [hd.keys, if_pos rfl]
    exact card_erase_lt_of_mem (mem_tenant_keys.mpr hleaf.1)

theorem Owned.size_of_root_leaf (hs : s.Owned ns) (hleaf : s.LeafFor ns rootId t) :
    s.size ns t = 0 := by
  have honly : ∀ i ∈ ns, s.has i t = true → i = rootId := by
    intro i hi hit
    obtain ⟨xs, hxs⟩ := hs.wf.toRooted.spine i hi
    clear hi
    induction hxs with
    | root => rfl
    | snoc hmem _ hpar _ ih =>
      have hp := ih (hs.sub hmem hpar hit)
      have hno := hleaf.2 _ hmem (hp ▸ hpar)
      cases hno.symm.trans hit
  refine sum_eq_zero fun i hi => ?_
  rw [share]
  split_ifs with hit
  · rw [honly i hi hit, hs.rootText]
    rfl
  · rfl

theorem sameTenants_shrinkCount (s : Tree) (t : TenantId) (n : ℕ) :
    SameTenants s (s.shrinkCount t n) := by
  unfold shrinkCount
  split
  · exact ⟨⟨fun _ => rfl, fun _ => rfl, fun _ => rfl, rfl⟩, fun _ _ => rfl⟩
  · exact sameTenants_counts s _

theorem lookup_shrinkCount (n : ℕ) : (s.shrinkCount t n).tenantCharCount.lookup u =
      if u = t then (s.tenantCharCount.lookup t).map (· - n) else s.tenantCharCount.lookup u := by
  unfold shrinkCount
  by_cases hu : u = t
  · subst hu
    rw [if_pos rfl]
    cases hcount : s.tenantCharCount.lookup u with
    | none => exact hcount
    | some count => exact lookup_insert _
  · rw [if_neg hu]
    cases s.tenantCharCount.lookup t with
    | none => rfl
    | some count => exact lookup_insert_of_ne _ hu

theorem SameTenants.leafFor (h : SameTenants s s') : s'.LeafFor ns i t ↔ s.LeafFor ns i t := by
  simp only [LeafFor, h.has, h.links.parent]

theorem Accounted.evictOne (hs : s.Accounted ns) (hleaf : s.LeafFor ns id t)
    (hover : 0 < s.size ns t) : ∃ ns', Dropped (s.shrinkCount t (s.nodes id).text.charCount) ns id t
        ((s.shrinkCount t (s.nodes id).text.charCount).dropTenant id t) ns' ∧
      ((s.shrinkCount t (s.nodes id).text.charCount).dropTenant id t).Accounted ns' := by
  have hsame := sameTenants_shrinkCount s t (s.nodes id).text.charCount
  set s₀ := s.shrinkCount t (s.nodes id).text.charCount with hs₀
  have howned := hsame.owned hs.toOwned
  have hleaf₀ : s₀.LeafFor ns id t := hsame.leafFor.mpr hleaf
  obtain ⟨ns', hd⟩ := howned.dropTenant hleaf₀
  have hne : id ≠ rootId := by
    rintro rfl
    rw [hs.toOwned.size_of_root_leaf hleaf] at hover
    exact absurd hover (lt_irrefl 0)
  refine ⟨ns', hd, hd.owned, fun u => ?_⟩
  have hroot : (s₀.dropTenant id t).has rootId u = s.has rootId u := by
    rw [Bool.eq_iff_iff, hd.has, hsame.has]
    exact and_iff_left fun h => hne h.1.symm
  rw [Counted, hd.counts, hroot, hs₀, lookup_shrinkCount, ← hs₀]
  by_cases hu : u = t
  · subst hu
    have hsize := hd.size_self hleaf₀ howned
    rw [hsame.size, hsame.links.textOf] at hsize
    have hcounted := hs.counted u
    have hru := hs.toOwned.has_root hleaf.1
    rw [Counted, if_pos hru] at hcounted
    rw [if_pos rfl, if_pos hru, hcounted, charCount_eq, Option.map_some]
    exact congrArg some (by omega)
  · rw [if_neg hu, hd.size_other hu, hsame.size]
    exact hs.counted u

/-- The heap has an entry for every last node of every tenant that is over `m`. -/
def Queued (s : Tree) (ns : Finset NodeId) (m : ℕ) (pq : List EvictionEntry) : Prop :=
  ∀ t i, m < s.size ns t → s.LeafFor ns i t → ∃ e ∈ pq, e.node = i ∧ e.tenant = t

theorem Accounted.size_le_of_queued (hs : s.Accounted ns) (hq : s.Queued ns m []) :
    s.size ns t ≤ m := by
  by_contra hover
  obtain ⟨i, hi, hpos⟩ := exists_ne_zero_of_sum_ne_zero
    ((Nat.zero_lt_of_lt (Nat.lt_of_not_le hover)).ne')
  have hit : s.has i t = true := by
    by_contra hno
    exact hpos (if_neg hno)
  obtain ⟨x, hx⟩ := hs.toOwned.exists_leafFor hit
  obtain ⟨e, he, -⟩ := hq t x (Nat.lt_of_not_le hover) hx
  exact not_mem_nil he

theorem Queued.skip (hq : s.Queued ns m pq) (hperm : (e :: rest).Perm pq)
    (hskip : s.size ns e.tenant ≤ m ∨ ¬s.LeafFor ns e.node e.tenant) : s.Queued ns m rest := by
  intro t i hover hleaf
  obtain ⟨e', he', rfl, rfl⟩ := hq t i hover hleaf
  rcases mem_cons.mp (hperm.mem_iff.mpr he') with rfl | hrest
  · rcases hskip with hle | hno
    · exact absurd hover (not_lt.mpr hle)
    · exact absurd hleaf hno
  · exact ⟨e', hrest, rfl, rfl⟩

theorem accessEntry_of_has (h : s.has i t = true) :
    ∃ e, s.accessEntry i t = some e ∧ e.node = i ∧ e.tenant = t := by
  rw [has, decide_eq_true_iff, mem_iff] at h
  obtain ⟨time, htime⟩ := h
  exact ⟨⟨time, t, i⟩, by rw [accessEntry, htime]; rfl, rfl, rfl⟩

/-- After an eviction the heap needs an entry for the parent when it has become a
last node, and no other. -/
theorem Dropped.queued (hd : Dropped s ns e.node e.tenant s' ns') (hs : s.Owned ns)
    (hleaf : s.LeafFor ns e.node e.tenant) (orders : Orders) (hq : s.Queued ns m pq)
    (hperm : (e :: rest).Perm pq) :
    s'.Queued ns' m (((s'.newLeaf orders e.node e.tenant).bind fun p =>
      s'.accessEntry p e.tenant).toList ++ rest) := by
  intro t i hover hi
  rcases hd.leafFor hi with ⟨hold, hne⟩ | ⟨rfl, hpar⟩
  · have hover' : m < s.size ns t := by
      refine hover.trans_le ?_
      by_cases ht : t = e.tenant
      · subst ht
        have := hd.size_self hleaf hs
        omega
      · rw [hd.size_other ht]
    obtain ⟨e', he', rfl, rfl⟩ := hq t i hover' hold
    refine ⟨e', mem_append_right _ ?_, rfl, rfl⟩
    refine (mem_cons.mp (hperm.mem_iff.mpr he')).resolve_left ?_
    rintro rfl
    exact hne ⟨rfl, rfl⟩
  · obtain ⟨e', he', hnode, htenant⟩ := accessEntry_of_has hi.1
    have hnew : s'.newLeaf orders e.node e.tenant = some i := (hd.newLeaf_iff orders).mpr ⟨hpar, hi⟩
    refine ⟨e', mem_append_left _ ?_, hnode, htenant⟩
    rw [hnew, Option.bind_some, he']
    exact List.mem_singleton_self e'

variable (hs : s.Accounted ns) (orders : Orders)
include hs orders

theorem Accounted.evictLoop (heap : EvictionHeap) (pq : List EvictionEntry) (fuel : ℕ)
    (hfuel : pq.length + s.pairs ns ≤ fuel) (hq : s.Queued ns m pq) :
    ∃ ns', (evictLoop orders heap m fuel s pq).Accounted ns' ∧
      (∀ t, (evictLoop orders heap m fuel s pq).size ns' t ≤ m) ∧
      ∀ i t, (evictLoop orders heap m fuel s pq).has i t = true → s.has i t = true := by
  induction fuel generalizing s ns pq with
  | zero =>
    obtain rfl : pq = [] := eq_nil_of_length_eq_zero (by omega)
    exact ⟨ns, hs, fun t => hs.size_le_of_queued hq, fun _ _ h => h⟩
  | succ fuel ih =>
    rw [Tree.evictLoop]
    cases hpop : heap.pop pq with
    | none =>
      obtain rfl := heap.pop_none hpop
      exact ⟨ns, hs, fun t => hs.size_le_of_queued hq, fun _ _ h => h⟩
    | some r =>
      obtain ⟨e, rest⟩ := r
      have hperm := heap.pop_perm hpop
      have hlen := hperm.length_eq
      rw [length_cons] at hlen
      dsimp only
      split
      · -- the tenant is within the size already
        rename_i hsmall
        refine ih hs rest (by omega) (hq.skip hperm (.inl ?_))
        have hcounted := hs.counted e.tenant
        rw [Counted] at hcounted
        rw [hcounted] at hsmall
        split at hsmall
        · exact of_decide_eq_true hsmall
        · cases hsmall
      rename_i hbig
      split
      swap
      · rename_i hno
        rw [hs.toShape.isLeafFor_iff] at hno
        exact ih hs rest (by omega) (hq.skip hperm (.inr hno))
      rename_i hleaf
      rw [hs.toShape.isLeafFor_iff] at hleaf
      have hover : m < s.size ns e.tenant := by
        by_contra hle
        apply hbig
        have hcounted := hs.counted e.tenant
        rw [Counted, if_pos (hs.toOwned.has_root hleaf.1)] at hcounted
        rw [hcounted, Option.any_some, decide_eq_true_iff]
        exact Nat.le_of_not_lt hle
      obtain ⟨ns₁, hd, hs₁⟩ := hs.evictOne hleaf (Nat.zero_lt_of_lt hover)
      have hsame := sameTenants_shrinkCount s e.tenant (s.nodes e.node).text.charCount
      have howned := hsame.owned hs.toOwned
      have hleaf₀ := hsame.leafFor.mpr hleaf
      have hq₀ : (s.shrinkCount e.tenant (s.nodes e.node).text.charCount).Queued ns m pq := by
        intro t i hover hi
        exact hq t i (hsame.size ▸ hover) (hsame.leafFor.mp hi)
      have hpairs := hd.pairs_lt howned hleaf₀
      have hpairs₀ : (s.shrinkCount e.tenant (s.nodes e.node).text.charCount).pairs ns = s.pairs ns := by
        refine sum_congr rfl fun i _ => congrArg card ?_
        ext u
        rw [mem_tenant_keys, mem_tenant_keys, hsame.has]
      have hentry : ∀ new : Option EvictionEntry, new.toList.length ≤ 1 := by
        rintro (_ | e) <;> simp
      obtain ⟨ns', hacc, hsize, hhas⟩ := ih hs₁ _ (by
        rw [length_append, add_assoc]
        exact (Nat.add_le_add_right (hentry _) _).trans (by omega))
        (hd.queued howned hleaf₀ orders hq₀ hperm)
      refine ⟨ns', hacc, hsize, fun i t hit => ?_⟩
      exact hsame.has i t ▸ ((hd.has i t).mp (hhas i t hit)).1

theorem Accounted.evictTenantBySize (heap : EvictionHeap) (m : ℕ) :
    ∃ ns', (s.evictTenantBySize orders heap m).Accounted ns' ∧
      (∀ t, (s.evictTenantBySize orders heap m).size ns' t ≤ m) ∧
      ∀ i t, (s.evictTenantBySize orders heap m).has i t = true → s.has i t = true := by
  obtain ⟨hnodup, hmem⟩ := hs.toShape.allNodes orders
  have hns : (s.allNodes orders).toFinset = ns := by
    ext i
    rw [mem_toFinset, hmem]
  refine hs.evictLoop orders heap _ _ ?_ ?_
  · rw [pairs, ← hns, sum_toFinset _ hnodup]
  intro t i _ hleaf
  obtain ⟨e, he, hnode, htenant⟩ := accessEntry_of_has hleaf.1
  refine ⟨e, mem_flatMap.mpr ⟨i, (hmem i).mpr (hs.mem_of_has hleaf.1), ?_⟩, hnode, htenant⟩
  refine mem_filterMap.mpr ⟨t, ?_, he⟩
  have hiff := (hs.toShape.isLeafFor_iff orders).mpr hleaf
  rw [isLeafFor, Bool.and_eq_true] at hiff
  refine mem_filter.mpr ⟨?_, hiff.2⟩
  rw [orders.tenants.mem_visit]
  exact mem_tenant_keys.mpr hleaf.1

theorem Accounted.removeTenant (t : TenantId) : ∃ ns', (s.removeTenant orders t).Accounted ns' ∧
      (∀ i u, (s.removeTenant orders t).has i u = true ↔ s.has i u = true ∧ u ≠ t) ∧ ns' ⊆ ns ∧
      ∀ {i l}, i ∈ ns' → (s.trie ns).Path i l → ((s.removeTenant orders t).trie ns').Path i l := by
  obtain ⟨hnodup, hmem⟩ := hs.toShape.allNodes orders
  have hcard : (ns.filter fun i => s.has i t = true).card ≤ (s.allNodes orders).length := by
    rw [← toFinset_card_of_nodup hnodup]
    refine card_le_card fun i hi => ?_
    rw [mem_toFinset, hmem]
    exact (mem_filter.mp hi).1
  obtain ⟨ns', howned, hsub, hhas, hsize, hcounts, hpath⟩ := hs.toOwned.removeLoop orders
    ((s.allNodes orders).filter fun id => s.isLeafFor orders id t) (s.allNodes orders).length
    (hnodup.filter _) (fun i => by
      rw [mem_filter, hs.toShape.isLeafFor_iff, hmem]
      exact and_iff_right_of_imp fun hleaf => hs.mem_of_has hleaf.1) hcard
  have hsame := sameTenants_counts (Tree.removeLoop orders t (s.allNodes orders).length s
    ((s.allNodes orders).filter fun id => s.isLeafFor orders id t)) (s.tenantCharCount.erase t)
  refine ⟨ns', ⟨?_, fun u => ?_⟩, ?_, hsub, ?_⟩
  all_goals rw [Tree.removeTenant, hcounts]
  · exact hsame.owned howned
  · have hroot := hhas rootId u
    by_cases hu : u = t
    · subst hu
      have hno : ¬(Tree.removeLoop orders u (s.allNodes orders).length s
          ((s.allNodes orders).filter fun id => s.isLeafFor orders id u)).has rootId u = true :=
        fun h => (hroot.mp h).2 rfl
      rw [Counted, hsame.has, if_neg hno]
      exact lookup_erase u _
    · have hsameroot : (Tree.removeLoop orders t (s.allNodes orders).length s
          ((s.allNodes orders).filter fun id => s.isLeafFor orders id t)).has rootId u =
          s.has rootId u := by
        rw [Bool.eq_iff_iff, hroot]
        exact and_iff_left hu
      rw [Counted, hsame.has, hsame.size, hsameroot, hsize u hu]
      exact (lookup_erase_ne hu).trans (hs.counted u)
  · exact hhas
  · intro i l hi hl
    exact hpath hi hl

end Evict

end SparkInfer.Gateway.Tree
