import Mathlib.Data.Finset.Erase
import Mathlib.Data.Finset.Max
import Mathlib.Data.Finset.Insert
import Mathlib.Data.List.Count
import Mathlib.Data.List.Nodup
import Mathlib.Logic.Function.Basic

/-!
# Rooted trees given by parent pointers

A tree of nodes that only know their parent, as a mutable program keeps it.
Its vocabulary is the spine of a node: the nodes on the way down to it, the root
left out.  The three ways such a program edits the tree (put a new node above an
existing one, attach a leaf, detach a leaf) are described by what they do to
spines.
-/

namespace SparkInfer.Lib

open List Finset

structure Forest (ι : Type*) where
  root : ι
  nodes : Finset ι
  parent : ι → Option ι

namespace Forest

variable {ι : Type*} {f : Forest ι} {n m p c x : ι} {ns ms : List ι} {g : Forest ι}

/-- `Spine f n ns`: `n` hangs below the root by the nodes `ns`, its own last. -/
inductive Spine (f : Forest ι) : ι → List ι → Prop
  | root : Spine f f.root []
  | snoc {n p : ι} {ns : List ι} (hmem : n ∈ f.nodes) (hne : n ≠ f.root)
      (hpar : f.parent n = some p) (hspine : Spine f p ns) : Spine f n (ns ++ [n])

structure Rooted (f : Forest ι) : Prop where
  root_mem : f.root ∈ f.nodes
  spine : ∀ n ∈ f.nodes, ∃ ns, Spine f n ns

theorem Spine.unique (h : Spine f n ns) (h' : Spine f n ms) : ns = ms := by
  induction h generalizing ms with
  | root =>
    cases h' with
    | root => rfl
    | snoc _ hne _ _ => exact absurd rfl hne
  | snoc _ hne hpar _ ih =>
    cases h' with
    | root => exact absurd rfl hne
    | snoc _ _ hpar' hspine' =>
      rw [hpar] at hpar'
      cases hpar'
      rw [ih hspine']

theorem Spine.node_unique (h : Spine f n ns) (h' : Spine f m ns) : n = m := by
  cases h with
  | root =>
    generalize hns : ([] : List ι) = ns at h'
    cases h' with
    | root => rfl
    | snoc => simp at hns
  | @snoc _ p ns =>
    generalize hns : ns ++ [n] = ns' at h'
    cases h' with
    | root => simp at hns
    | snoc => exact (append_inj' hns rfl).2 |> singleton_inj.mp

theorem Spine.root_eq (h : Spine f f.root ns) : ns = [] :=
  h.unique .root

theorem Spine.mem_nodes_of_ne (h : Spine f n ns) (hne : n ≠ f.root) : n ∈ f.nodes := by
  cases h with
  | root => exact absurd rfl hne
  | snoc hmem => exact hmem

theorem Rooted.mem_of_spine (hf : f.Rooted) (h : Spine f n ns) : n ∈ f.nodes := by
  by_cases hn : n = f.root
  · rw [hn]
    exact hf.root_mem
  · exact h.mem_nodes_of_ne hn

theorem Spine.parent (h : Spine f n ns) (hne : n ≠ f.root) :
    ∃ p ps, n ∈ f.nodes ∧ f.parent n = some p ∧ Spine f p ps ∧ ns = ps ++ [n] := by
  cases h with
  | root => exact absurd rfl hne
  | snoc hmem _ hpar hspine => exact ⟨_, _, hmem, hpar, hspine, rfl⟩

theorem Spine.mem (h : Spine f n ns) (hx : x ∈ ns) : x ∈ f.nodes ∧ x ≠ f.root := by
  induction h with
  | root => simp at hx
  | snoc hmem hne _ _ ih =>
    rcases mem_append.mp hx with hx | hx
    · exact ih hx
    · rw [List.mem_singleton.mp hx]
      exact ⟨hmem, hne⟩

theorem Spine.self_mem (h : Spine f n ns) (hne : n ≠ f.root) : n ∈ ns := by
  obtain ⟨p, ps, -, -, -, rfl⟩ := h.parent hne
  simp

theorem Spine.cut (h : Spine f n (ms ++ x :: ns)) : Spine f x (ms ++ [x]) := by
  generalize hl : ms ++ x :: ns = l at h
  induction h generalizing ns with
  | root => simp at hl
  | snoc hmem hne hpar hspine ih =>
    rcases eq_nil_or_concat ns with hns | ⟨ns', y, hns⟩
    · subst hns
      obtain ⟨h1, h2⟩ := append_inj' hl rfl
      cases singleton_inj.mp h2
      rw [h1]
      exact .snoc hmem hne hpar hspine
    · subst hns
      rw [concat_eq_append, ← cons_append, ← append_assoc] at hl
      exact ih (append_inj' hl rfl).1

theorem Spine.of_mem (h : Spine f n ns) (hx : x ∈ ns) :
    ∃ ps rest, Spine f x (ps ++ [x]) ∧ ns = ps ++ x :: rest := by
  obtain ⟨ps, rest, rfl⟩ := append_of_mem hx
  exact ⟨ps, rest, h.cut, rfl⟩

theorem Spine.child (hn : Spine f n ns) (hx : Spine f x (ns ++ c :: ms)) :
    c ∈ f.nodes ∧ c ≠ f.root ∧ f.parent c = some n := by
  have hc := hx.cut
  have hne : c ≠ f.root := (hc.mem (by simp)).2
  obtain ⟨p, ps, hmem, hpar, hspine, heq⟩ := hc.parent hne
  obtain ⟨h1, -⟩ := append_inj' heq rfl
  rw [← h1] at hspine
  rw [hn.node_unique hspine]
  exact ⟨hmem, hne, hpar⟩

theorem Spine.nodup (h : Spine f n ns) : ns.Nodup := by
  induction h with
  | root => exact nodup_nil
  | @snoc n p ns hmem hne hpar hspine ih =>
    rw [nodup_append]
    refine ⟨ih, nodup_singleton n, ?_⟩
    intro a ha b hb hab
    rw [List.mem_singleton] at hb
    subst hab hb
    -- a second visit would make the spine of `a` a proper part of itself
    obtain ⟨ps, rest, hps, hns⟩ := hspine.of_mem ha
    have hself := unique hps (.snoc hmem hne hpar hspine)
    have hlen := congrArg length hself
    rw [hns] at hlen
    simp at hlen

theorem Spine.parent_not_mem (h : Spine f p ns) (hmem : n ∈ f.nodes) (hne : n ≠ f.root)
    (hpar : f.parent n = some p) : n ∉ ns := by
  have hnodup := (snoc hmem hne hpar h).nodup
  intro hin
  exact (nodup_append.mp hnodup).2.2 n hin n (by simp) rfl

theorem Spine.congr (h : Spine f n ns) (hroot : g.root = f.root)
    (hmem : ∀ x ∈ ns, x ∈ g.nodes) (hpar : ∀ x ∈ ns, g.parent x = f.parent x) : Spine g n ns := by
  induction h with
  | root =>
    rw [← hroot]
    exact .root
  | @snoc n p ns _ hne hp _ ih =>
    refine .snoc (hmem n (by simp)) (by rwa [hroot]) ?_ (ih ?_ ?_)
    · rw [hpar n (by simp), hp]
    · exact fun x hx => hmem x (by simp [hx])
    · exact fun x hx => hpar x (by simp [hx])

theorem Rooted.parent_mem (hf : f.Rooted) (hn : n ∈ f.nodes) (hne : n ≠ f.root) :
    ∃ p ∈ f.nodes, f.parent n = some p := by
  obtain ⟨ns, hns⟩ := hf.spine n hn
  obtain ⟨p, ps, -, hpar, hp, -⟩ := hns.parent hne
  exact ⟨p, hf.mem_of_spine hp, hpar⟩

theorem Spine.leaf_not_mem (hleaf : ∀ c ∈ f.nodes, f.parent c = some x → c = f.root)
    (h : Spine f n ns) (hn : n ≠ x) : x ∉ ns := by
  induction h with
  | root => simp
  | @snoc n p ns hmem hne hpar _ ih =>
    intro hin
    rcases mem_append.mp hin with hin | hin
    · refine ih ?_ hin
      rintro rfl
      exact hne (hleaf n hmem hpar)
    · exact hn (List.mem_singleton.mp hin).symm

/-! ## Cover counts -/

def Covers (f : Forest ι) (n h : ι) : Prop := ∃ ns, f.Spine h ns ∧ n ∈ ns

open Classical in
noncomputable def cover (f : Forest ι) (held : List ι) (n : ι) : ℕ :=
  held.countP fun h => decide (f.Covers n h)

variable {held : List ι} {h : ι}

theorem Spine.covers_iff (hs : Spine f h ns) : f.Covers n h ↔ n ∈ ns := by
  constructor
  · rintro ⟨ms, hms, hn⟩
    rwa [hs.unique hms]
  · exact fun hn => ⟨ns, hs, hn⟩

open Classical in
theorem cover_cons : f.cover (h :: held) n = f.cover held n + if f.Covers n h then 1 else 0 := by
  unfold cover
  rw [countP_cons]
  simp

theorem cover_congr {m : ι} (hcov : ∀ h ∈ held, f.Covers n h ↔ g.Covers m h) :
    f.cover held n = g.cover held m := by
  apply countP_congr
  intro h hh
  simp [hcov h hh]

theorem cover_mono {m : ι} (hcov : ∀ h ∈ held, f.Covers n h → f.Covers m h) :
    f.cover held n ≤ f.cover held m := by
  apply countP_mono_left
  intro h hh hn
  simp only [decide_eq_true_eq] at hn ⊢
  exact hcov h hh hn

theorem cover_le_parent (hpar : f.parent n = some p) (hp : p ≠ f.root) :
    f.cover held n ≤ f.cover held p := by
  apply cover_mono
  rintro h - ⟨ns, hns, hn⟩
  obtain ⟨ps, rest, hps, rfl⟩ := hns.of_mem hn
  refine ⟨_, hns, ?_⟩
  obtain ⟨q, qs, -, hq, hqs, heq⟩ := hps.parent (hns.mem hn).2
  rw [hpar] at hq
  cases hq
  have hself := hqs.self_mem hp
  rw [← (append_inj' heq rfl).1] at hself
  simp [hself]

theorem Covers.trans (hn : f.Covers n m) (hm : f.Covers m h) : f.Covers n h := by
  obtain ⟨ms, hms, hnm⟩ := hn
  obtain ⟨ns, hns, hmh⟩ := hm
  obtain ⟨ps, rest, hps, rfl⟩ := hns.of_mem hmh
  refine ⟨_, hns, ?_⟩
  rw [hms.unique hps] at hnm
  rcases mem_append.mp hnm with hnm | hnm
  · exact mem_append_left _ hnm
  · rw [List.mem_singleton.mp hnm]
    simp

theorem cover_pos_of_mem (hf : f.Rooted) (hh : h ∈ held) (hmem : h ∈ f.nodes)
    (hne : h ≠ f.root) : 0 < f.cover held h := by
  obtain ⟨ns, hns⟩ := hf.spine h hmem
  unfold cover
  rw [countP_pos_iff]
  exact ⟨h, hh, by simpa using ⟨ns, hns, hns.self_mem hne⟩⟩

/-! ## Edits -/

variable [DecidableEq ι]

/-- A new node `m` between `c` and its parent. -/
def split (f : Forest ι) (c m : ι) : Forest ι where
  root := f.root
  nodes := insert m f.nodes
  parent := Function.update (Function.update f.parent m (f.parent c)) c (some m)

def attach (f : Forest ι) (p m : ι) : Forest ι where
  root := f.root
  nodes := insert m f.nodes
  parent := Function.update f.parent m (some p)

def detach (f : Forest ι) (x : ι) : Forest ι where
  root := f.root
  nodes := f.nodes.erase x
  parent := f.parent

def through (c m : ι) (ns : List ι) : List ι :=
  ns.flatMap fun x => if x = c then [m, x] else [x]

theorem through_append : through c m (ns ++ ms) = through c m ns ++ through c m ms := by
  simp [through]

theorem through_of_not_mem (h : c ∉ ns) : through c m ns = ns := by
  unfold through
  induction ns with
  | nil => rfl
  | cons x xs ih =>
    have hx : x ≠ c := fun hxc => h (by simp [hxc])
    rw [flatMap_cons, if_neg hx, ih (fun hc => h (by simp [hc]))]
    rfl

theorem mem_through : x ∈ through c m ns ↔ x ∈ ns ∨ (x = m ∧ c ∈ ns) := by
  unfold through
  rw [mem_flatMap]
  constructor
  · rintro ⟨y, hy, hx⟩
    split_ifs at hx with hyc
    · rcases mem_cons.mp hx with rfl | hx
      · exact .inr ⟨rfl, hyc ▸ hy⟩
      · exact .inl (List.mem_singleton.mp hx ▸ hy)
    · exact .inl (List.mem_singleton.mp hx ▸ hy)
  · rintro (hx | ⟨rfl, hc⟩)
    · exact ⟨x, hx, by split_ifs <;> simp⟩
    · exact ⟨c, hc, by simp⟩

section Split

theorem split_parent_of_ne (hxm : x ≠ m) (hxc : x ≠ c) : (f.split c m).parent x = f.parent x := by
  simp [split, hxm, hxc]

theorem split_parent_child : (f.split c m).parent c = some m := by
  simp [split]

variable (hc : c ∈ f.nodes) (hroot : c ≠ f.root) (hm : m ∉ f.nodes)
include hc hm

theorem split_parent_new : (f.split c m).parent m = f.parent c := by
  have hmc : m ≠ c := fun h => hm (h ▸ hc)
  simp [split, hmc]

include hroot

theorem Spine.split_new (hf : f.Rooted) {cs : List ι} (h : Spine f c (cs ++ [c])) :
    Spine (f.split c m) m (cs ++ [m]) := by
  obtain ⟨p, ps, -, hpar, hp, heq⟩ := h.parent hroot
  have hcs : ps = cs := ((append_inj' heq rfl).1).symm
  rw [hcs] at hp
  have hp' : Spine (f.split c m) p cs := by
    apply hp.congr (g := f.split c m) rfl
    · intro x hx
      exact mem_insert_of_mem (hp.mem hx).1
    intro x hx
    apply split_parent_of_ne
    · exact fun hxm => hm (hxm ▸ (hp.mem hx).1)
    · rintro rfl
      exact hp.parent_not_mem hc hroot hpar hx
  refine .snoc (mem_insert_self _ _) ?_ ?_ hp'
  · exact fun hmr => hm (hmr ▸ hf.root_mem)
  · rw [split_parent_new hc hm, hpar]

theorem Spine.split (hf : f.Rooted) (h : Spine f n ns) :
    Spine (f.split c m) n (through c m ns) := by
  induction h with
  | root => exact .root
  | @snoc n p ns hmem hne hpar hspine ih =>
    rw [through_append]
    by_cases hnc : n = c
    · subst hnc
      have hnot := hspine.parent_not_mem hmem hne hpar
      have hm' := split_new hc hroot hm hf (.snoc hmem hne hpar hspine)
      rw [through_of_not_mem hnot]
      have hthrough : through n m [n] = [m] ++ [n] := by simp [through]
      rw [hthrough, ← append_assoc]
      exact .snoc (mem_insert_of_mem hmem) hne (split_parent_child) hm'
    · have hthrough : through c m [n] = [n] := by simp [through, hnc]
      rw [hthrough]
      refine .snoc (mem_insert_of_mem hmem) hne ?_ ih
      have hnm : n ≠ m := fun hnm => hm (hnm ▸ hmem)
      rw [split_parent_of_ne hnm hnc, hpar]

theorem Rooted.split (hf : f.Rooted) : (f.split c m).Rooted := by
  refine ⟨mem_insert_of_mem hf.root_mem, ?_⟩
  intro n hn
  rcases mem_insert.mp hn with rfl | hn
  · obtain ⟨cs, hcs⟩ := hf.spine c hc
    obtain ⟨p, ps, -, -, -, rfl⟩ := hcs.parent hroot
    exact ⟨_, Spine.split_new hc hroot hm hf hcs⟩
  · obtain ⟨ns, hns⟩ := hf.spine n hn
    exact ⟨_, hns.split hc hroot hm hf⟩

end Split

section Attach

variable (hf : f.Rooted) (hp : p ∈ f.nodes) (hm : m ∉ f.nodes)
include hm

theorem Spine.attach (h : Spine f n ns) : Spine (f.attach p m) n ns := by
  apply h.congr (g := f.attach p m) rfl
  · intro x hx
    exact mem_insert_of_mem (h.mem hx).1
  · intro x hx
    have hxm : x ≠ m := fun hxm => hm (hxm ▸ (h.mem hx).1)
    simp [Forest.attach, hxm]

include hf

theorem Spine.attach_new (h : Spine f p ns) : Spine (f.attach p m) m (ns ++ [m]) := by
  refine .snoc (mem_insert_self _ _) ?_ ?_ (h.attach hm)
  · exact fun hmr => hm (hmr ▸ hf.root_mem)
  · simp [Forest.attach]

include hp

theorem Rooted.attach : (f.attach p m).Rooted := by
  refine ⟨mem_insert_of_mem hf.root_mem, ?_⟩
  intro n hn
  rcases mem_insert.mp hn with rfl | hn
  · obtain ⟨ps, hps⟩ := hf.spine p hp
    exact ⟨_, hps.attach_new hf hm⟩
  · obtain ⟨ns, hns⟩ := hf.spine n hn
    exact ⟨ns, hns.attach hm⟩

end Attach

section Detach

variable (hf : f.Rooted) (hx : x ≠ f.root) (hleaf : ∀ c ∈ f.nodes, f.parent c = some x → c = f.root)
include hleaf

theorem Spine.detach (h : Spine f n ns) (hn : n ≠ x) : Spine (f.detach x) n ns := by
  have hnot := leaf_not_mem hleaf h hn
  apply h.congr (g := f.detach x) rfl
  · intro y hy
    exact mem_erase.mpr ⟨fun hyx => hnot (hyx ▸ hy), (h.mem hy).1⟩
  · exact fun _ _ => rfl

include hf hx

theorem Rooted.detach : (f.detach x).Rooted := by
  refine ⟨mem_erase.mpr ⟨hx.symm, hf.root_mem⟩, ?_⟩
  intro n hn
  obtain ⟨hnx, hn⟩ := mem_erase.mp hn
  obtain ⟨ns, hns⟩ := hf.spine n hn
  exact ⟨ns, hns.detach hleaf hnx⟩

end Detach

/-! ## Cover counts of an edit -/

open Classical in
theorem cover_erase (hh : h ∈ held) :
    f.cover held n = f.cover (held.erase h) n + if f.Covers n h then 1 else 0 := by
  have hperm : held.Perm (h :: held.erase h) := perm_cons_erase hh
  rw [← cover_cons]
  exact hperm.countP_eq _

section Edit

variable (hf : f.Rooted) (hheld : ∀ h ∈ held, h ∈ f.nodes)
include hf hheld

theorem cover_split_old (hc : c ∈ f.nodes) (hroot : c ≠ f.root) (hm : m ∉ f.nodes)
    (hn : n ∈ f.nodes) : (f.split c m).cover held n = f.cover held n := by
  apply cover_congr
  intro h hh
  obtain ⟨ns, hns⟩ := hf.spine h (hheld h hh)
  have hnm : n ≠ m := fun hnm => hm (hnm ▸ hn)
  rw [hns.covers_iff, (hns.split hc hroot hm hf).covers_iff, mem_through]
  simp [hnm]

theorem cover_split_new (hc : c ∈ f.nodes) (hroot : c ≠ f.root) (hm : m ∉ f.nodes) :
    (f.split c m).cover held m = f.cover held c := by
  apply cover_congr
  intro h hh
  obtain ⟨ns, hns⟩ := hf.spine h (hheld h hh)
  have hmns : m ∉ ns := fun hin => hm (hns.mem hin).1
  rw [hns.covers_iff, (hns.split hc hroot hm hf).covers_iff, mem_through]
  simp [hmns]

theorem cover_attach_old (hm : m ∉ f.nodes) : (f.attach p m).cover held n = f.cover held n := by
  apply cover_congr
  intro h hh
  obtain ⟨ns, hns⟩ := hf.spine h (hheld h hh)
  rw [hns.covers_iff, (hns.attach hm).covers_iff]

theorem cover_of_not_mem (hm : m ∉ f.nodes) : f.cover held m = 0 := by
  unfold cover
  rw [countP_eq_zero]
  intro h hh
  obtain ⟨ns, hns⟩ := hf.spine h (hheld h hh)
  simp only [decide_eq_true_eq, hns.covers_iff]
  exact fun hin => hm (hns.mem hin).1

theorem cover_detach (hleaf : ∀ c ∈ f.nodes, f.parent c = some x → c = f.root)
    (hx : x ∉ held) : (f.detach x).cover held n = f.cover held n := by
  apply cover_congr
  intro h hh
  obtain ⟨ns, hns⟩ := hf.spine h (hheld h hh)
  have hhx : h ≠ x := fun hhx => hx (hhx ▸ hh)
  rw [hns.covers_iff, (Spine.detach hleaf hns hhx).covers_iff]

end Edit

theorem Rooted.exists_leaf (hf : f.Rooted) (hn : n ∈ f.nodes) (hne : n ≠ f.root) :
    ∃ x ∈ f.nodes, x ≠ f.root ∧ f.Covers n x ∧ ∀ c ∈ f.nodes, f.parent c = some x → c = f.root := by
  classical
  obtain ⟨ns, hns⟩ := hf.spine n hn
  let depth : ι → ℕ := fun x => if h : ∃ xs, f.Spine x xs then h.choose.length else 0
  have hdepth : ∀ {x : ι} {xs : List ι}, f.Spine x xs → depth x = xs.length := by
    intro x xs hxs
    have hex : ∃ xs, f.Spine x xs := ⟨xs, hxs⟩
    simp only [depth, dif_pos hex]
    rw [hxs.unique hex.choose_spec]
  have hnonempty : (f.nodes.filter (f.Covers n)).Nonempty :=
    ⟨n, mem_filter.mpr ⟨hn, ns, hns, hns.self_mem hne⟩⟩
  -- a deepest node below `n` has no children
  obtain ⟨x, hx, hmax⟩ := exists_max_image _ depth hnonempty
  obtain ⟨hxmem, xs, hxs, hnx⟩ := mem_filter.mp hx
  have hxroot : x ≠ f.root := by
    rintro rfl
    rw [hxs.root_eq] at hnx
    simp at hnx
  refine ⟨x, hxmem, hxroot, ⟨xs, hxs, hnx⟩, ?_⟩
  intro c hc hpar
  by_contra hcroot
  have hcs : f.Spine c (xs ++ [c]) := .snoc hc hcroot hpar hxs
  have hle := hmax c (mem_filter.mpr ⟨hc, _, hcs, by simp [hnx]⟩)
  rw [hdepth hcs, hdepth hxs, length_append, length_singleton] at hle
  omega

end Forest

end SparkInfer.Lib
