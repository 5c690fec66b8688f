import SparkInfer.Lib.Forest
import Mathlib.Data.Finset.Sort
import Mathlib.Data.Finset.Card
import Mathlib.Data.Finmap

/-!
# Unspecified orders and traversals

Hash maps are visited in an order that the program does not control, and a binary
heap does not say which of several smallest entries it yields.  Both are structures
here that carry what is guaranteed.  The last part is the traversal with an explicit
stack: on a rooted tree it meets every node once.
-/

namespace SparkInfer.Lib

open List Finset

/-- The order in which a hash set or the keys of a hash map are visited: every
element once, otherwise unspecified. -/
structure IterOrder (α : Type*) where
  visit : Finset α → List α
  nodup_visit : ∀ s, (visit s).Nodup
  mem_visit : ∀ s a, a ∈ visit s ↔ a ∈ s

def IterOrder.ascending {α : Type*} [LinearOrder α] : IterOrder α where
  visit s := s.sort (· ≤ ·)
  nodup_visit _ := sort_nodup _ _
  mem_visit _ _ := mem_sort _

/-- How a heap yields its entries: always one with the smallest key. -/
structure PopOrder (α : Type*) {κ : Type*} [LE κ] (key : α → κ) where
  pop : List α → Option (α × List α)
  pop_none : ∀ {l}, pop l = none → l = []
  pop_perm : ∀ {l a rest}, pop l = some (a, rest) → (a :: rest).Perm l
  pop_least : ∀ {l a rest}, pop l = some (a, rest) → ∀ b ∈ rest, key a ≤ key b

theorem exists_lookup {α β : Type*} [DecidableEq α] {m : Finmap fun _ : α => β} (h : m ≠ ∅) :
    ∃ a b, m.lookup a = some b := by
  by_contra hnone
  refine h (Finmap.ext_lookup fun a => ?_)
  by_contra hne
  obtain ⟨b, hb⟩ := Option.ne_none_iff_exists'.mp hne
  exact hnone ⟨a, b, hb⟩

section Dfs

variable {ι : Type*}

/-- The nodes that a loop over an explicit stack meets; the top of the stack is the
head, and children are pushed in the order of `children`. -/
def dfs (children : ι → List ι) : ℕ → List ι → List ι
  | 0, _ => []
  | _ + 1, [] => []
  | fuel + 1, x :: stack => x :: dfs children fuel ((children x).reverse ++ stack)

variable [DecidableEq ι] {f : Forest ι} {children : ι → List ι} {V : Finset ι} {stack : List ι}

def Forest.ListsChildren (f : Forest ι) (children : ι → List ι) : Prop :=
  ∀ p ∈ f.nodes, (children p).Nodup ∧
    ∀ c, c ∈ children p ↔ c ∈ f.nodes ∧ c ≠ f.root ∧ f.parent c = some p

omit [DecidableEq ι] in
theorem Forest.Rooted.mem_of_closed (hf : f.Rooted) (hroot : f.root ∈ V)
    (hclosed : ∀ v ∈ V, ∀ c ∈ f.nodes, c ≠ f.root → f.parent c = some v → c ∈ V) {n : ι}
    (hn : n ∈ f.nodes) : n ∈ V := by
  obtain ⟨ns, hns⟩ := hf.spine n hn
  clear hn
  induction hns with
  | root => exact hroot
  | snoc hmem hne hpar _ ih => exact hclosed _ ih _ hmem hne hpar

/-- The state of the traversal: `V` has been met and the rest of the tree hangs
below the stack. -/
structure Forest.Frontier (f : Forest ι) (V : Finset ι) (stack : List ι) : Prop where
  sub : V ⊆ f.nodes
  nodup : stack.Nodup
  mem : ∀ x ∈ stack, x ∈ f.nodes ∧ x ∉ V
  parent : ∀ x, x ∈ V ∨ x ∈ stack → x ≠ f.root → ∃ p ∈ V, f.parent x = some p
  closed : ∀ v ∈ V, ∀ c ∈ f.nodes, c ≠ f.root → f.parent c = some v → c ∈ V ∨ c ∈ stack
  root : f.root ∈ V ∨ f.root ∈ stack

theorem Forest.Frontier.push {x : ι}
    (h : f.Frontier V (x :: stack)) (hch : f.ListsChildren children) :
    f.Frontier (insert x V) ((children x).reverse ++ stack) := by
  obtain ⟨hx, hxV⟩ := h.mem x mem_cons_self
  obtain ⟨hnodup, hchild⟩ := hch x hx
  obtain ⟨hxs, hstack⟩ := nodup_cons.mp h.nodup
  -- a child of `x` has not been met, because its parent has not
  have hnew : ∀ c ∈ children x, c ∉ V ∧ c ∉ x :: stack := by
    intro c hc
    obtain ⟨-, hne, hpar⟩ := (hchild c).mp hc
    have hmet : ¬(c ∈ V ∨ c ∈ x :: stack) := by
      intro hmet
      obtain ⟨p, hp, hpar'⟩ := h.parent c hmet hne
      rw [hpar] at hpar'
      cases hpar'
      exact hxV hp
    exact not_or.mp hmet
  refine ⟨insert_subset hx h.sub, ?_, ?_, ?_, ?_, ?_⟩
  · refine List.Nodup.append (nodup_reverse.mpr hnodup) hstack fun c hc hcs => ?_
    exact (hnew c (mem_reverse.mp hc)).2 (mem_cons_of_mem _ hcs)
  · intro c hc
    rcases mem_append.mp hc with hc | hc
    · rw [mem_reverse] at hc
      obtain ⟨hcV, hcs⟩ := hnew c hc
      refine ⟨((hchild c).mp hc).1, fun hmem => ?_⟩
      rcases mem_insert.mp hmem with rfl | hmem
      · exact hcs mem_cons_self
      · exact hcV hmem
    · obtain ⟨hcn, hcV⟩ := h.mem c (mem_cons_of_mem _ hc)
      refine ⟨hcn, fun hmem => ?_⟩
      rcases mem_insert.mp hmem with heq | hmem
      · exact hxs (heq ▸ hc)
      · exact hcV hmem
  · intro c hc hne
    have hold (hmet : c ∈ V ∨ c ∈ x :: stack) : ∃ p ∈ insert x V, f.parent c = some p := by
      obtain ⟨p, hp, hpar⟩ := h.parent c hmet hne
      exact ⟨p, mem_insert_of_mem hp, hpar⟩
    rcases hc with hc | hc
    · rcases mem_insert.mp hc with rfl | hc
      · exact hold (.inr mem_cons_self)
      · exact hold (.inl hc)
    rcases mem_append.mp hc with hc | hc
    · obtain ⟨-, -, hpar⟩ := (hchild c).mp (mem_reverse.mp hc)
      exact ⟨x, mem_insert_self x V, hpar⟩
    · exact hold (.inr (mem_cons_of_mem _ hc))
  · intro v hv c hc hne hpar
    rcases mem_insert.mp hv with rfl | hv
    · exact .inr (mem_append_left _ (mem_reverse.mpr ((hchild c).mpr ⟨hc, hne, hpar⟩)))
    rcases h.closed v hv c hc hne hpar with hcV | hcs
    · exact .inl (mem_insert_of_mem hcV)
    · rcases mem_cons.mp hcs with rfl | hcs
      · exact .inl (mem_insert_self _ V)
      · exact .inr (mem_append_right _ hcs)
  · rcases h.root with hroot | hroot
    · exact .inl (mem_insert_of_mem hroot)
    · rcases mem_cons.mp hroot with heq | hroot
      · exact .inl (heq ▸ Finset.mem_insert_self x V)
      · exact .inr (mem_append_right _ hroot)

/-- By induction on the fuel: every iteration meets one node more, so as many
iterations as there are nodes left are enough. -/
theorem Forest.Frontier.dfs (h : f.Frontier V stack)
    (hf : f.Rooted) (hch : f.ListsChildren children) {fuel : ℕ}
    (hfuel : f.nodes.card ≤ fuel + V.card) :
    (dfs children fuel stack).Nodup ∧ ∀ n, n ∈ dfs children fuel stack ↔ n ∈ f.nodes ∧ n ∉ V := by
  induction fuel generalizing V stack with
  | zero =>
    have hV : V = f.nodes := eq_of_subset_of_card_le h.sub (by omega)
    simp [Lib.dfs, hV]
  | succ fuel ih =>
    cases stack with
    | nil =>
      have hroot : f.root ∈ V := h.root.resolve_right not_mem_nil
      have hall : ∀ n ∈ f.nodes, n ∈ V := fun n hn =>
        hf.mem_of_closed hroot (fun v hv c hc hne hpar =>
          (h.closed v hv c hc hne hpar).resolve_right not_mem_nil) hn
      refine ⟨nodup_nil, fun n => ⟨fun hn => absurd hn not_mem_nil, fun ⟨hn, hnV⟩ => ?_⟩⟩
      exact absurd (hall n hn) hnV
    | cons x stack =>
      obtain ⟨hx, hxV⟩ := h.mem x mem_cons_self
      obtain ⟨hnodup, hmem⟩ := ih (h.push hch) (by
        rw [card_insert_of_notMem hxV]
        omega)
      refine ⟨nodup_cons.mpr ⟨fun hin => ?_, hnodup⟩, fun n => ?_⟩
      · exact ((hmem x).mp hin).2 (mem_insert_self x V)
      rw [Lib.dfs, List.mem_cons, hmem, mem_insert, not_or]
      constructor
      · rintro (rfl | ⟨hn, -, hnV⟩)
        · exact ⟨hx, hxV⟩
        · exact ⟨hn, hnV⟩
      rintro ⟨hn, hnV⟩
      by_cases hnx : n = x
      · exact .inl hnx
      · exact .inr ⟨hn, hnx, hnV⟩

theorem Forest.Rooted.dfs_root (hf : f.Rooted) (hch : f.ListsChildren children) {fuel : ℕ}
    (hfuel : f.nodes.card ≤ fuel) : (Lib.dfs children fuel [f.root]).Nodup ∧
      ∀ n, n ∈ Lib.dfs children fuel [f.root] ↔ n ∈ f.nodes := by
  have hstart : f.Frontier ∅ [f.root] := by
    refine ⟨empty_subset _, nodup_singleton _, ?_, ?_, ?_, .inr mem_cons_self⟩
    · intro x hx
      rw [List.mem_singleton.mp hx]
      exact ⟨hf.root_mem, notMem_empty _⟩
    · rintro x (hx | hx) hne
      · exact absurd hx (notMem_empty x)
      · exact absurd (List.mem_singleton.mp hx) hne
    · exact fun v hv => absurd hv (notMem_empty v)
  obtain ⟨hnodup, hmem⟩ := hstart.dfs hf hch (by simpa using hfuel)
  exact ⟨hnodup, fun n => by simp [hmem]⟩

end Dfs

end SparkInfer.Lib
