import SparkInfer.Gateway.Accounts

/-!
# What the prefix tree matches

A tenant covers a text when some node of it is reached by an extension of the text.
An insertion adds the initial parts of the inserted text to what its tenant covers,
and `prefix_match_tenant` finds the longest initial part of a text that the tenant
covers.
-/

namespace SparkInfer.Gateway

open Lib Lib.CommonPrefix List Trie.Path Trie

namespace Tree

variable {s s' : Tree} {ns ns' : Finset NodeId} {id i j p prev : NodeId} {c : Char}
  {t u : TenantId} {w v x : List Char} {k n : ℕ}

def Reads (s : Tree) (ns : Finset NodeId) (i : NodeId) (w : List Char) : Prop :=
  (s.trie ns).Path i (w.map fun c => (c, ()))

def Covered (s : Tree) (ns : Finset NodeId) (t : TenantId) (w : List Char) : Prop :=
  ∃ i v, s.has i t = true ∧ s.Reads ns i v ∧ w <+: v

theorem map_keys_unit (l : List (Char × Unit)) : (Trie.keys l).map (fun c => (c, ())) = l := by
  rw [map_map]
  exact map_id l

theorem reads_of_path {l : List (Char × Unit)} (h : (s.trie ns).Path i l) :
    s.Reads ns i (keys l) := by
  rwa [Reads, map_keys_unit]

theorem reads_root : s.Reads ns rootId [] :=
  path_root (s.trie ns)

theorem Reads.unique (h : s.Reads ns i w) (h' : s.Reads ns i v) : w = v := by
  have hmap := Trie.Path.unique h h'
  rw [← keys_map_unit w, hmap, keys_map_unit]

theorem Reads.child (h : s.Reads ns p w) (hchild : IsChild s ns p c id) :
    s.Reads ns id (w ++ s.textOf id) := by
  rw [Reads, map_append]
  exact Trie.Path.child h hchild.mem hchild.ne_root hchild.parent

theorem SameLinks.reads (h : SameLinks s s') : s'.Reads ns i w ↔ s.Reads ns i w := by
  rw [Reads, Reads, h.trie]

theorem SameTenants.covered (h : SameTenants s s') : s'.Covered ns t w ↔ s.Covered ns t w := by
  simp only [Covered, h.has, h.links.reads]

theorem Shape.exists_reads (hs : s.Shape ns) (hi : i ∈ ns) : ∃ w, s.Reads ns i w := by
  obtain ⟨l, hl⟩ := hs.wf.path_exists hi
  exact ⟨_, reads_of_path hl⟩

theorem Owned.has_of_covers (hs : s.Owned ns) (hi : s.has i t = true)
    (hcov : (s.trie ns).Covers j i) : s.has j t = true := by
  obtain ⟨xs, hxs, hj⟩ := hcov
  induction hxs with
  | root => cases hj
  | snoc hmem _ hpar _ ih =>
    rcases mem_append.mp hj with hj | hj
    · exact ih (hs.sub hmem hpar hi) hj
    · rwa [mem_singleton.mp hj]

/-- What a tenant covers beyond the text of `p` it covers through a child of `p`. -/
theorem Owned.covered_beyond (hs : s.Owned ns) (hp : s.Reads ns p w)
    (hcov : s.Covered ns t (w ++ c :: x)) : ∃ id, IsChild s ns p c id ∧ s.has id t = true ∧
      (c :: x <+: s.textOf id ∨ s.textOf id <+: c :: x) := by
  obtain ⟨i, v, hi, hv, rest, rfl⟩ := hcov
  have hkeys : keys (((w ++ c :: x ++ rest).map fun c => (c, ())).take
      (w.map fun c => (c, ())).length) = keys (w.map fun c => (c, ())) := by
    rw [length_map, ← map_take, keys_map_unit, keys_map_unit, append_assoc, take_left]
  obtain ⟨id, hmem, hne, hpar, hcovers, rest', hrest⟩ := hs.wf.next_on_path hp hv hkeys (by simp)
  have htext : c :: x ++ rest = s.textOf id ++ keys rest' := by
    have hall : w ++ (s.textOf id ++ Trie.keys rest') = w ++ (c :: x ++ rest) := by
      have hmap := congrArg Trie.keys hrest
      simpa [trie, Function.comp_def] using hmap
    exact (append_cancel_left hall).symm
  refine ⟨id, ⟨hmem, hne, hpar, ?_⟩, hs.has_of_covers hi hcovers, ?_⟩
  · obtain ⟨d, ds, hds⟩ := exists_cons_of_ne_nil (hs.text_ne_nil hmem hne)
    rw [hds] at htext
    rw [hds, head?_cons, (cons.inj htext).1]
  · exact prefix_or_prefix_of_prefix ⟨rest, rfl⟩ ⟨_, htext.symm⟩

theorem text_text : (s.nodes id).text.text = s.textOf id := rfl

section Insert

theorem has_attachTenant (s : Tree) (t : TenantId) (id : NodeId) (n : ℕ) (i : NodeId) (u : TenantId) :
    (s.attachTenant t id n).has i u = true ↔ s.has i u = true ∨ (i = id ∧ u = t) := by
  unfold attachTenant
  split_ifs with hid
  · refine (or_iff_left_of_imp ?_).symm
    rintro ⟨rfl, rfl⟩
    exact hid
  · rw [has_setAccess]
    rfl

theorem sameLinks_attachTenant (s : Tree) (t : TenantId) (id : NodeId) (n : ℕ) :
    SameLinks s (s.attachTenant t id n) := by
  unfold attachTenant
  split
  · exact (quiet_bumpEpoch s).links.trans ⟨fun _ => rfl, fun _ => rfl, fun _ => rfl, rfl⟩
  · exact (sameTenants_counts s _).links.trans (sameLinks_setAccess _ id t 0)

theorem covered_of_given (hlinks : SameLinks s s')
    (hhas : ∀ i u, s'.has i u = true ↔ s.has i u = true ∨ (i = id ∧ u = t))
    (hid : s.Reads ns id w) : s'.Covered ns u x ↔ s.Covered ns u x ∨ (u = t ∧ x <+: w) := by
  simp only [Covered, hhas, hlinks.reads]
  constructor
  · rintro ⟨i, v, hi | ⟨rfl, rfl⟩, hv, hx⟩
    · exact .inl ⟨i, v, hi, hv, hx⟩
    · exact .inr ⟨rfl, hv.unique hid ▸ hx⟩
  · rintro (⟨i, v, hi, hv, hx⟩ | ⟨rfl, hx⟩)
    · exact ⟨i, v, .inl hi, hv, hx⟩
    · exact ⟨id, w, .inr ⟨rfl, rfl⟩, hid, hx⟩

theorem Reads.addLeaf (hs : s.Shape ns) (hprev : prev ∈ ns) (h : s.Reads ns i w) :
    (s.addLeaf t prev c x).Reads (Insert.insert s.nextId ns) i w := by
  rw [Reads, trie_addLeaf (hs.ne_nextId hprev)]
  exact attach hs.nextId_not_mem h

theorem covered_addLeaf (hs : s.Shape ns) (hprev : s.Reads ns prev w) :
    (s.addLeaf t prev c v).Covered (Insert.insert s.nextId ns) u x ↔
      s.Covered ns u x ∨ (u = t ∧ x <+: w ++ v) := by
  have hmem : prev ∈ ns := hs.wf.mem_of_path hprev
  have hnew : (s.addLeaf t prev c v).Reads (Insert.insert s.nextId ns) s.nextId (w ++ v) := by
    rw [Reads, trie_addLeaf (hs.ne_nextId hmem), map_append]
    exact attach_new hs.wf hs.nextId_not_mem hprev
  simp only [Covered, has_addLeaf hs hmem]
  constructor
  · rintro ⟨i, y, hi | ⟨rfl, rfl⟩, hy, hx⟩
    · obtain ⟨z, hz⟩ := hs.exists_reads (hs.mem_of_has hi)
      exact .inl ⟨i, z, hi, hz, (hy.unique (hz.addLeaf hs hmem)) ▸ hx⟩
    · exact .inr ⟨rfl, hy.unique hnew ▸ hx⟩
  · rintro (⟨i, y, hi, hy, hx⟩ | ⟨rfl, hx⟩)
    · exact ⟨i, y, .inl hi, hy.addLeaf hs hmem, hx⟩
    · exact ⟨s.nextId, w ++ v, .inr ⟨rfl, rfl⟩, hnew, hx⟩

section Split

variable (hs : s.Shape ns) (hprev : s.Reads ns prev w) (hchild : IsChild s ns prev c id)
include hs hprev hchild

theorem reads_splitNode_old (h : s.Reads ns i v) :
    (s.splitNode prev c id k).Reads (Insert.insert s.nextId ns) i v := by
  rw [Reads, trie_splitNode hs (hs.wf.mem_of_path hprev) hchild]
  exact split hs.wf hchild.mem hchild.ne_root hs.nextId_not_mem h

theorem reads_splitNode_new : (s.splitNode prev c id k).Reads (Insert.insert s.nextId ns) s.nextId
      (w ++ (s.textOf id).take k) := by
  rw [Reads, trie_splitNode hs (hs.wf.mem_of_path hprev) hchild, map_append, map_take]
  refine split_new hs.wf hchild.mem hchild.ne_root hs.nextId_not_mem ?_
  exact child hprev hchild.mem hchild.ne_root hchild.parent

/-- A split changes nothing for any tenant: the new node has the tenants of the one
below it, whose text extends its own. -/
theorem covered_splitNode :
    (s.splitNode prev c id k).Covered (Insert.insert s.nextId ns) u x ↔ s.Covered ns u x := by
  have hmem := hs.wf.mem_of_path hprev
  have hhas := has_splitNode (k := k) hs hmem hchild
  constructor
  · rintro ⟨i, v, hi, hv, hx⟩
    rw [hhas] at hi
    split_ifs at hi with hin
    · subst hin
      have hvw := hv.unique (reads_splitNode_new hs hprev hchild)
      refine ⟨id, w ++ s.textOf id, hi, hprev.child hchild, hx.trans ?_⟩
      rw [hvw]
      exact (prefix_append_right_inj w).mpr ( take_prefix k _)
    · obtain ⟨z, hz⟩ := hs.exists_reads (hs.mem_of_has hi)
      exact ⟨i, z, hi, hz, hv.unique (reads_splitNode_old hs hprev hchild hz) ▸ hx⟩
  · rintro ⟨i, v, hi, hv, hx⟩
    refine ⟨i, v, ?_, reads_splitNode_old hs hprev hchild hv, hx⟩
    rwa [hhas, if_neg (hs.ne_nextId (hs.mem_of_has hi))]

end Split

structure Inserted (s : Tree) (ns : Finset NodeId) (t : TenantId) (w : List Char) (s' : Tree)
    (ns' : Finset NodeId) : Prop where
  accounted : s'.Accounted ns'
  covered : ∀ u x, s'.Covered ns' u x ↔ s.Covered ns u x ∨ (u = t ∧ x <+: w)

theorem Inserted.after {s₁ : Tree} {ns₁ : Finset NodeId} (hv : v <+: w)
    (hcov : ∀ u x, s₁.Covered ns₁ u x ↔ s.Covered ns u x ∨ (u = t ∧ x <+: v))
    (h : Inserted s₁ ns₁ t w s' ns') : Inserted s ns t w s' ns' := by
  refine ⟨h.accounted, fun u x => ?_⟩
  rw [h.covered, hcov, or_assoc]
  refine or_congr_right (or_iff_right_of_imp ?_)
  exact And.imp_right fun hx => hx.trans hv

theorem insertLoop_nil (fuel : ℕ) :
    Tree.insertLoop t fuel s prev [] = (s.setAccess prev t s.epoch).bumpEpoch := by
  cases fuel <;> rfl

theorem Accounted.insertEnd (hs : s.Accounted ns) (hprev : s.Reads ns prev w)
    (ht : s.has prev t = true) : Inserted s ns t w (s.setAccess prev t s.epoch).bumpEpoch ns := by
  have hquiet := (quiet_setAccess ht s.epoch).trans (quiet_bumpEpoch _)
  refine ⟨hquiet.accounted hs, fun u y => ?_⟩
  rw [hquiet.toSameTenants.covered]
  refine (or_iff_left_of_imp ?_).symm
  rintro ⟨rfl, hy⟩
  exact ⟨prev, w, ht, hprev, hy⟩

theorem one_le_commonLen (hchild : IsChild s ns prev c id) (rest : List Char) :
    1 ≤ commonLen (c :: rest) (s.textOf id) := by
  rw [le_commonLen_iff]
  cases htext : s.textOf id with
  | nil =>
    have hfirst := hchild.first
    rw [htext] at hfirst
    cases hfirst
  | cons d ds =>
    have hfirst := hchild.first
    rw [htext] at hfirst
    cases hfirst
    exact ⟨by simp, by simp, rfl⟩

/-- One iteration of the loop has gone down to `q`, which reads `v`. -/
structure Stepped (s : Tree) (ns : Finset NodeId) (t : TenantId) (v : List Char) (s' : Tree)
    (ns' : Finset NodeId) (q : NodeId) : Prop extends Inserted s ns t v s' ns' where
  reads : s'.Reads ns' q v
  has : s'.has q t = true

section

variable (hs : s.Accounted ns) (hprev : s.Reads ns prev w) (ht : s.has prev t = true)
include hs hprev ht

theorem Accounted.stepped_attachTenant (hchild : IsChild s ns prev c id) :
    Stepped s ns t (w ++ s.textOf id) (s.attachTenant t id (s.textOf id).length) ns id := by
  have hlinks := sameLinks_attachTenant s t id (s.textOf id).length
  have hhas := has_attachTenant s t id (s.textOf id).length
  have hid := hprev.child hchild
  refine ⟨⟨hs.attachTenant hchild.mem hchild.ne_root ?_ (hs.toOwned.has_root ht),
    fun u y => covered_of_given hlinks hhas hid⟩, hlinks.reads.mpr hid, (hhas id t).mpr (.inr ⟨rfl, rfl⟩)⟩
  intro p hp
  cases hchild.parent.symm.trans hp
  exact ht

theorem Accounted.stepped_splitNode (hchild : IsChild s ns prev c id) (hk : 0 < k)
    (hlt : k < (s.textOf id).length) :
    Stepped s ns t (w ++ (s.textOf id).take k) ((s.splitNode prev c id k).attachTenant t s.nextId k)
      (Insert.insert s.nextId ns) s.nextId := by
  have hmem : prev ∈ ns := hs.wf.mem_of_path hprev
  have hacc := hs.splitNode hmem hchild hk hlt
  have hnew : IsChild (s.splitNode prev c id k) (Insert.insert s.nextId ns) prev c s.nextId :=
    (isChild_splitNode hs.toShape hmem hchild hk hlt).mpr (.inr (.inl ⟨rfl, rfl, rfl⟩))
  have htext : (s.splitNode prev c id k).textOf s.nextId = (s.textOf id).take k := by
    rw [splitNode_text hs.toShape hmem hchild, if_neg (hs.ne_nextId hchild.mem).symm, if_pos rfl]
  have ht' : (s.splitNode prev c id k).has prev t = true := by
    rwa [has_splitNode hs.toShape hmem hchild, if_neg (hs.ne_nextId hmem)]
  have hstep := hacc.stepped_attachTenant (reads_splitNode_old hs.toShape hprev hchild hprev) ht' hnew
  rw [htext, length_take, min_eq_left hlt.le] at hstep
  refine ⟨⟨hstep.accounted, fun u y => ?_⟩, hstep.reads, hstep.has⟩
  rw [hstep.covered, covered_splitNode hs.toShape hprev hchild]

theorem Accounted.insertLoop (fuel : ℕ) (hfuel : x.length ≤ fuel) :
    ∃ ns', Inserted s ns t (w ++ x) (insertLoop t fuel s prev x) ns' := by
  induction fuel generalizing s ns prev w x with
  | zero =>
    obtain rfl : x = [] := eq_nil_of_length_eq_zero (Nat.le_zero.mp hfuel)
    rw [insertLoop_nil, append_nil]
    exact ⟨ns, hs.insertEnd hprev ht⟩
  | succ fuel ih =>
    cases x with
    | nil =>
      rw [insertLoop_nil, append_nil]
      exact ⟨ns, hs.insertEnd hprev ht⟩
    | cons c rest =>
      have hmem : prev ∈ ns := hs.wf.mem_of_path hprev
      rw [Tree.insertLoop]
      cases hlook : (s.nodes prev).children.lookup c with
      | none =>
        exact ⟨_, hs.addLeaf hmem ht hlook rfl, fun u y => covered_addLeaf hs.toShape hprev⟩
      | some id =>
        have hchild := (hs.lookup hmem c id).mp hlook
        have hpos := one_le_commonLen hchild rest
        have hleft := commonLen_le_left (c :: rest) (s.textOf id)
        have htake := take_commonLen (c :: rest) (s.textOf id)
        dsimp only
        rw [sharedPrefixCount_eq, charCount_eq, advanceByChars_eq, text_text]
        generalize commonLen (c :: rest) (s.textOf id) = k at hpos hleft htake ⊢
        have hsplit : w ++ c :: rest = w ++ (c :: rest).take k ++ (c :: rest).drop k := by
          rw [append_assoc, take_append_drop]
        have hdrop : ((c :: rest).drop k).length ≤ fuel := by
          rw [length_drop]
          omega
        rw [hsplit]
        split_ifs with hlt
        · have hstep := hs.stepped_splitNode hprev ht hchild hpos hlt
          rw [← htake] at hstep
          obtain ⟨ns', hns'⟩ := ih hstep.accounted hstep.reads hstep.has hdrop
          exact ⟨ns', hns'.after (prefix_append _ _) hstep.covered⟩
        have hstep := hs.stepped_attachTenant hprev ht hchild
        rw [htake, take_of_length_le (Nat.le_of_not_lt hlt)]
        obtain ⟨ns', hns'⟩ := ih hstep.accounted hstep.reads hstep.has hdrop
        exact ⟨ns', hns'.after (prefix_append _ _) hstep.covered⟩

end

theorem Accounted.insert (hs : s.Accounted ns) (w : List Char) (t : TenantId) :
    ∃ ns', Inserted s ns t w (s.insert w t) ns' := by
  obtain ⟨hacc, hroot, hlinks, hhas⟩ := hs.ensureTenant t
  obtain ⟨ns', hns'⟩ := hacc.insertLoop (reads_root) hroot w.length le_rfl
  refine ⟨ns', hns'.after nil_prefix fun u y => ?_⟩
  exact covered_of_given hlinks hhas (reads_root)

end Insert

section Lookup

theorem Shape.descend_mem (hs : s.Shape ns) (allowed : NodeId → Bool) (hprev : prev ∈ ns) (fuel n : ℕ)
    (x : List Char) : (s.descend allowed fuel prev n x).1 ∈ ns := by
  induction fuel generalizing prev n x with
  | zero => cases x <;> exact hprev
  | succ fuel ih =>
    cases x with
    | nil => exact hprev
    | cons c rest =>
      rw [descend]
      cases hlook : (s.nodes prev).children.lookup c with
      | none => exact hprev
      | some id =>
        have hid := ((hs.lookup hprev c id).mp hlook).mem
        dsimp only
        split
        · split
          · exact ih hid _ _
          · exact hid
        · exact hprev

structure Longest (s : Tree) (ns : Finset NodeId) (t : TenantId) (w x y : List Char) : Prop where
  initial : y <+: x
  covered : w ++ y = [] ∨ s.Covered ns t (w ++ y)
  longest : ∀ z, z <+: x → s.Covered ns t (w ++ z) → z.length ≤ y.length

theorem Owned.longest_nil (hs : s.Owned ns) (hprev : s.Reads ns prev w)
    (ht : w = [] ∨ s.has prev t = true)
    (hstop : ∀ d, x.head? = some d → ∀ id, IsChild s ns prev d id → s.has id t = false) :
    s.Longest ns t w x [] := by
  refine ⟨ nil_prefix, ?_, fun z hz hcov => ?_⟩
  · rw [append_nil]
    exact ht.imp_right fun ht => ⟨prev, w, ht, hprev, prefix_refl w⟩
  cases z with
  | nil => exact le_rfl
  | cons d z =>
    obtain ⟨id, hchild, hid, -⟩ := hs.covered_beyond hprev hcov
    have hd : x.head? = some d := by
      obtain ⟨rest, rfl⟩ := hz
      rfl
    rw [hstop d hd id hchild] at hid
    cases hid

theorem IsChild.unique (hs : s.Shape ns) (hp : p ∈ ns) (hi : IsChild s ns p c i)
    (hj : IsChild s ns p c j) : i = j :=
  Option.some.inj (((hs.lookup hp c i).mpr hi).symm.trans ((hs.lookup hp c j).mpr hj))

section Child

variable (hs : s.Owned ns) (hprev : s.Reads ns prev w) (hchild : IsChild s ns prev c id)
include hs hprev hchild

theorem Owned.longest_within {rest : List Char} (ht : s.has id t = true)
    (hlt : commonLen (c :: rest) (s.textOf id) < (s.textOf id).length) :
    s.Longest ns t w (c :: rest) ((c :: rest).take (commonLen (c :: rest) (s.textOf id))) := by
  have hmem : prev ∈ ns := hs.wf.mem_of_path hprev
  refine ⟨ take_prefix _ _, .inr ⟨id, _, ht, hprev.child hchild, ?_⟩, fun z hz hcov => ?_⟩
  · rw [take_commonLen]
    exact (prefix_append_right_inj w).mpr ( take_prefix _ _)
  rw [length_take, min_eq_left (commonLen_le_left _ _)]
  cases z with
  | nil => exact Nat.zero_le _
  | cons d z =>
    obtain ⟨rfl, hrest⟩ : d = c ∧ z <+: rest := cons_prefix_cons.mp hz
    obtain ⟨id', hchild', -, hagree⟩ := hs.covered_beyond hprev hcov
    obtain rfl := IsChild.unique hs.toShape hmem hchild hchild'
    rcases hagree with hshort | hlong
    · rw [le_commonLen_iff]
      refine ⟨hz.length_le, hshort.length_le, ?_⟩
      rw [← prefix_iff_eq_take.mp hz, ← prefix_iff_eq_take.mp hshort]
    · -- the whole text of the child agrees, which it does not
      refine absurd ((le_commonLen_iff _ _ _).mpr ⟨?_, le_rfl, ?_⟩) (not_le.mpr hlt)
      · exact (hlong.trans hz).length_le
      · rw [← prefix_iff_eq_take.mp (hlong.trans hz), take_length]

theorem Owned.longest_below {rest y : List Char} (hall : s.textOf id ++ rest = c :: x)
    (hy : s.Longest ns t (w ++ s.textOf id) rest y) : s.Longest ns t w (c :: x) (s.textOf id ++ y) := by
  have hmem : prev ∈ ns := hs.wf.mem_of_path hprev
  refine ⟨?_, ?_, fun z hz hcov => ?_⟩
  · rw [← hall]
    exact (prefix_append_right_inj _).mpr hy.initial
  · rw [← append_assoc]
    exact hy.covered
  rw [length_append]
  cases z with
  | nil => exact Nat.zero_le _
  | cons d z =>
    obtain ⟨rfl, -⟩ : d = c ∧ z <+: x := cons_prefix_cons.mp hz
    obtain ⟨id', hchild', -, hagree⟩ := hs.covered_beyond hprev hcov
    obtain rfl := IsChild.unique hs.toShape hmem hchild hchild'
    rcases hagree with hshort | ⟨z', hz'⟩
    · exact hshort.length_le.trans (Nat.le_add_right _ _)
    rw [← hz'] at hcov hz ⊢
    rw [← hall] at hz
    rw [← append_assoc] at hcov
    rw [length_append]
    exact Nat.add_le_add_left (hy.longest z' ((prefix_append_right_inj _).mp hz) hcov) _

end Child

theorem Owned.descend (hs : s.Owned ns) (hprev : s.Reads ns prev w)
    (ht : w = [] ∨ s.has prev t = true) (fuel : ℕ) (hfuel : x.length ≤ fuel) :
    ∃ y, s.Longest ns t w x y ∧
      (s.descend (fun id => s.has id t) fuel prev w.length x).2 = w.length + y.length := by
  induction fuel generalizing prev w x with
  | zero =>
    obtain rfl : x = [] := eq_nil_of_length_eq_zero (Nat.le_zero.mp hfuel)
    exact ⟨[], hs.longest_nil hprev ht (fun d hd => nomatch hd), rfl⟩
  | succ fuel ih =>
    cases x with
    | nil =>
      exact ⟨[], hs.longest_nil hprev ht (fun d hd => nomatch hd), rfl⟩
    | cons c rest =>
      have hmem : prev ∈ ns := hs.wf.mem_of_path hprev
      rw [Tree.descend]
      cases hlook : (s.nodes prev).children.lookup c with
      | none =>
        refine ⟨[], hs.longest_nil hprev ht fun d hd id hchild => ?_, rfl⟩
        cases hd
        exact absurd hchild (hs.not_child hmem hlook)
      | some id =>
        have hchild := (hs.lookup hmem c id).mp hlook
        dsimp only
        rw [sharedPrefixCount_eq, charCount_eq, advanceByChars_eq, text_text]
        split
        · rename_i hid
          have hle := commonLen_le_right (c :: rest) (s.textOf id)
          have htake := take_commonLen (c :: rest) (s.textOf id)
          split_ifs with hwhole
          · rw [hwhole, take_length] at htake
            have hall : s.textOf id ++ (c :: rest).drop (s.textOf id).length = c :: rest := by
              calc s.textOf id ++ (c :: rest).drop (s.textOf id).length
                  = (c :: rest).take (s.textOf id).length ++
                      (c :: rest).drop (s.textOf id).length := by rw [htake]
                _ = c :: rest := take_append_drop _ _
            have hpos := one_le_commonLen hchild rest
            have hdrop : ((c :: rest).drop (s.textOf id).length).length ≤ fuel := by
              rw [length_drop]
              omega
            obtain ⟨y, hy, hlen⟩ := ih (hprev.child hchild) (.inr hid) hdrop
            refine ⟨_, hs.longest_below hprev hchild hall hy, ?_⟩
            rw [hwhole, ← length_append, hlen, length_append, length_append, add_assoc]
          · refine ⟨_, hs.longest_within hprev hchild hid (lt_of_le_of_ne hle hwhole), ?_⟩
            rw [length_take, min_eq_left (commonLen_le_left _ _)]
        · rename_i hid
          refine ⟨[], hs.longest_nil hprev ht fun d hd id' hchild' => ?_, rfl⟩
          cases hd
          rw [← IsChild.unique hs.toShape hmem hchild hchild']
          exact Bool.eq_false_iff.mpr hid

theorem Owned.prefixMatchTenant (hs : s.Owned ns) (x : List Char) (t : TenantId) :
    s.Longest ns t [] x (s.prefixMatchTenant x t).2 := by
  obtain ⟨y, hy, hlen⟩ := hs.descend (reads_root) (.inl rfl) x.length (le_refl x.length)
  rw [Tree.prefixMatchTenant]
  dsimp only
  rw [takeChars_eq]
  change (s.descend (fun id => s.has id t) x.length rootId 0 x).2 = 0 + y.length at hlen
  rwa [hlen, zero_add, ← prefix_iff_eq_take.mp hy.initial]

theorem quiet_prefixMatchTenant (s : Tree) (x : List Char) (t : TenantId) :
    Quiet s (s.prefixMatchTenant x t).1 := by
  rw [Tree.prefixMatchTenant]
  dsimp only
  split_ifs with hcurr
  · exact (quiet_setAccess hcurr s.epoch).trans (quiet_bumpEpoch _)
  · exact ⟨⟨⟨fun _ => rfl, fun _ => rfl, fun _ => rfl, rfl⟩, fun _ _ => rfl⟩, rfl⟩

theorem quiet_chooseTenant (s : Tree) (orders : Orders) (id : NodeId) :
    Quiet s (s.chooseTenant orders id).1 := by
  rw [chooseTenant]
  split
  · exact quiet_lastTenant s id _
  · split
    · exact ⟨⟨⟨fun _ => rfl, fun _ => rfl, fun _ => rfl, rfl⟩, fun _ _ => rfl⟩, rfl⟩
    · exact quiet_lastTenant s id _

theorem epoch_chooseTenant (orders : Orders) : (s.chooseTenant orders id).1.epoch = s.epoch := by
  rw [chooseTenant]
  split
  · rfl
  · split <;> rfl

theorem has_chooseTenant (orders : Orders) (hne : (s.nodes id).tenantLastAccessTime.keys ≠ ∅) :
    s.has id (s.chooseTenant orders id).2 = true := by
  have hfirst : s.has id (((orders.tenants.visit (s.nodes id).tenantLastAccessTime.keys).head?).getD
      "empty") = true := by
    obtain ⟨t, ht⟩ := Finset.nonempty_iff_ne_empty.mpr hne
    rw [← orders.tenants.mem_visit] at ht
    obtain ⟨d, ds, hds⟩ := exists_cons_of_ne_nil (ne_nil_of_mem ht)
    rw [hds, List.head?_cons, has, decide_eq_true_iff, ← Finmap.mem_keys,
      ← orders.tenants.mem_visit, hds]
    exact mem_cons_self
  rw [chooseTenant]
  split
  · exact hfirst
  · split
    · assumption
    · exact hfirst

theorem Owned.quiet_prefixMatchWithCounts (hs : s.Owned ns) (orders : Orders) (x : List Char)
    (hroot : s.epoch &&& 7 = 0 → (s.nodes rootId).tenantLastAccessTime.keys ≠ ∅) :
    Quiet s (s.prefixMatchWithCounts orders x).1 := by
  have hmem := hs.toShape.descend_mem (fun _ => true) hs.root_mem x.length 0 x
  rw [Tree.prefixMatchWithCounts]
  dsimp only
  generalize (s.descend (fun _ => true) x.length rootId 0 x).1 = curr at hmem ⊢
  have hquiet := (quiet_chooseTenant s orders curr).trans (quiet_bumpEpoch _)
  split_ifs with hepoch
  · have hne : (s.nodes curr).tenantLastAccessTime.keys ≠ ∅ := by
      by_cases hcurr : curr = rootId
      · rw [hcurr]
        rw [epoch_chooseTenant] at hepoch
        exact hroot hepoch
      · obtain ⟨t, ht⟩ := hs.owner hmem hcurr
        rw [has, decide_eq_true_iff] at ht
        exact Finset.ne_empty_of_mem ht
    refine hquiet.trans (quiet_setAccess ?_ _)
    rw [hquiet.has]
    exact has_chooseTenant orders hne
  · exact hquiet

end Lookup

theorem covered_removeTenant (hs : s.Owned ns) (hs' : s'.Owned ns')
    (hhas : ∀ i u, s'.has i u = true ↔ s.has i u = true ∧ u ≠ t)
    (hpath : ∀ {i l}, i ∈ ns' → (s.trie ns).Path i l → (s'.trie ns').Path i l) :
    s'.Covered ns' u x ↔ s.Covered ns u x ∧ u ≠ t := by
  constructor
  · rintro ⟨i, v, hi, hv, hx⟩
    obtain ⟨hold, hne⟩ := (hhas i u).mp hi
    obtain ⟨z, hz⟩ := hs.exists_reads (hs.mem_of_has hold)
    have hzv : v = z := hv.unique (hpath (hs'.mem_of_has hi) hz)
    exact ⟨⟨i, z, hold, hz, hzv ▸ hx⟩, hne⟩
  · rintro ⟨⟨i, v, hi, hv, hx⟩, hne⟩
    have hi' := (hhas i u).mpr ⟨hi, hne⟩
    exact ⟨i, v, hi', hpath (hs'.mem_of_has hi') hv, hx⟩

end Tree

end SparkInfer.Gateway
