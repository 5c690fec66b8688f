import SparkInfer.Radix.Ownership
import Mathlib.Algebra.Order.BigOperators.Group.Finset

/-!
# Every page has one owner

The ownership of pages along whole runs, read off the invariant of
`SparkInfer.Radix.Ownership`.
-/

namespace SparkInfer.Radix

open Lib Alloc Alloc.Paged World Multiset List World.ReachBy

variable {H B : Type} {cfg : Config} {hf : HashFns H B}
variable {r : Req} {o : Holder} {w : World H B} {nodes : Finset NodeId} {N : Nat} {P : Multiset Int}

/-- An act on one request, given what it does when that request comes first. -/
theorem Owned.onReq (h : Owned cfg hf w.cache w.live nodes N P) {i : Nat}
    {f : RadixCache H B → Req → Except PyError (RadixCache H B × Req)}
    (hact : ∀ r rest, w.live[i]? = some r → Owned cfg hf w.cache (r :: rest) nodes N P →
      ∃ c' r' nodes' Q, f w.cache r = .ok (c', r') ∧ Owned cfg hf c' (r' :: rest) nodes' N Q) :
    ∃ w' nodes' Q, w.onReq i f = .ok w' ∧ Owned cfg hf w'.cache w'.live nodes' N Q := by
  unfold World.onReq
  cases hget : w.live[i]? with
  | none => exact ⟨w, nodes, P, rfl, h⟩
  | some r =>
    obtain ⟨hi, hr⟩ := List.getElem?_eq_some_iff.mp hget
    have hfocus := h.perm (getElem_cons_eraseIdx_perm hi).symm
    rw [hr] at hfocus
    obtain ⟨c', r', nodes', Q, hrun, h'⟩ := hact r _ hget hfocus
    refine ⟨⟨c', w.live.set i r'⟩, nodes', Q, by simp [hrun], ?_⟩
    exact h'.perm (set_perm_cons_eraseIdx hi r').symm

section Run

variable [DecidableEq B]

theorem Owned.step {act : Act} (h : Owned cfg hf w.cache w.live nodes N P)
    (legal : w.Legal cfg act) (hact : act ≠ .reset) :
    ∃ w' nodes' Q, w.step cfg hf act = .ok w' ∧ Owned cfg hf w'.cache w'.live nodes' N Q := by
  cases act with
  | admitReq r limit =>
    obtain ⟨c', r', nodes', hrun, h'⟩ := h.admitReq r limit
    exact ⟨⟨c', r' :: w.live⟩, nodes', P, by simp [World.step, hrun], h'⟩
  | matchPrefix key =>
    obtain ⟨c', res, nodes', hrun, h'⟩ := h.matchPrefix key
    exact ⟨⟨c', w.live⟩, nodes', P, by simp [World.step, hrun], h'⟩
  | output i tokens =>
    simp only [World.step]
    exact h.onReq fun r rest _ hr => ⟨_, _, nodes, P, rfl, hr.output tokens⟩
  | extend i seqLen =>
    simp only [World.step]
    refine h.onReq fun r rest hget hr => ?_
    obtain ⟨hlen, hle⟩ := legal r hget
    obtain ⟨Q, hQ⟩ := hr.extendReq hlen hle
    exact ⟨_, _, nodes, Q, rfl, hQ⟩
  | decode i =>
    simp only [World.step]
    refine h.onReq fun r rest _ hr => ?_
    obtain ⟨Q, hQ⟩ := hr.decodeReq
    exact ⟨_, _, nodes, Q, rfl, hQ⟩
  | cacheUnfinished i fillLen chunked =>
    simp only [World.step]
    exact h.onReq fun r rest hget hr => hr.cacheUnfinished (legal r hget) chunked
  | finish i isInsert kvLen =>
    simp only [World.step]
    cases hget : w.live[i]? with
    | none => exact ⟨w, nodes, P, rfl, h⟩
    | some r =>
      obtain ⟨hi, hr⟩ := List.getElem?_eq_some_iff.mp hget
      have hfocus := h.perm (getElem_cons_eraseIdx_perm hi).symm
      rw [hr] at hfocus
      obtain ⟨c', nodes', Q, hrun, h'⟩ := hfocus.releaseKvCache (legal r hget) isInsert
      exact ⟨⟨c', w.live.eraseIdx i⟩, nodes', Q, by simp [hrun], h'⟩
  | evict tie numTokens =>
    obtain ⟨c', n, nodes', hrun, h'⟩ := h.evict tie numTokens
    exact ⟨⟨c', w.live⟩, nodes', P, by simp [World.step, hrun], h'⟩
  | freeGroupBegin =>
    exact ⟨_, nodes, P, rfl, h.gains (gains_freeGroupBegin h.holds.sane legal)⟩
  | freeGroupEnd => exact ⟨_, nodes, P, rfl, h.gains (gains_freeGroupEnd h.holds.sane)⟩
  | flush =>
    have hidle : w.live = [] := legal
    rw [hidle] at h
    refine ⟨⟨w.cache.flush cfg, w.live⟩, {(w.cache.reset cfg).tree.rootNode},
      (arange 1 N : Multiset Int), rfl, ?_⟩
    rw [hidle]
    exact h.flush
  | reset => exact absurd rfl hact

theorem World.ReachBy.owned (h : World.ReachBy cfg hf (· ≠ .reset) w) :
    ∃ nodes P, Owned cfg hf w.cache w.live nodes w.cache.allocator.numPages P := by
  induction h with
  | init counter size needSort => exact ⟨_, _, owned_fresh _ _ rfl⟩
  | step _ legal hact hstep ih =>
    obtain ⟨nodes, P, hown⟩ := ih
    obtain ⟨w'', nodes', Q, hrun, hown'⟩ := hown.step legal hact
    rw [hstep] at hrun
    cases hrun
    exact ⟨nodes', Q, hown'.holds.numPages.symm ▸ hown'⟩

end Run

/-! ## Owners -/

inductive Holder
  | allocator
  | node (n : NodeId)
  | request (i : Nat)
deriving DecidableEq

/-- `p` is with `o`: on the allocator's lists, or the page of a slot of a node's
value or of the unprotected part of a live row. -/
def World.Owns (cfg : Config) (w : World H B) (p : Int) : Holder → Prop
  | .allocator => p ∈ w.cache.allocator.freePages ∨ p ∈ w.cache.allocator.releasePages ∨
      ∃ slot ∈ w.cache.allocator.freePageRepsGroup.flatten, slot / (cfg.pageSize : Int) = p
  | .node n => InTree w.cache.tree.toSkeleton n ∧
      ∃ slot ∈ w.cache.tree.value n, slot / (cfg.pageSize : Int) = p
  | .request i => ∃ r, w.live[i]? = some r ∧ ∃ slot ∈ r.unprotected, slot / (cfg.pageSize : Int) = p

/-- The pages `1 .. num_pages` are shared out. -/
structure World.Partitioned (cfg : Config) (w : World H B) : Prop where
  owner : ∀ p, 1 ≤ p → p ≤ (w.cache.allocator.numPages : Int) → ∃! o, w.Owns cfg p o
  real : ∀ p o, w.Owns cfg p o → 1 ≤ p ∧ p ≤ (w.cache.allocator.numPages : Int)
  free_nodup : (w.cache.allocator.freePages ++ w.cache.allocator.releasePages ++
    w.cache.allocator.freePageRepsGroup.flatten.map (· / (cfg.pageSize : Int))).Nodup
  value_nodup : ∀ n, InTree w.cache.tree.toSkeleton n → (w.cache.tree.value n).Nodup
  row_nodup : ∀ r ∈ w.live, r.unprotected.Nodup
  /-- The rest of a live row is in locked nodes of the tree. -/
  shared : ∀ r ∈ w.live, ∀ slot ∈ r.row.take r.cacheProtectedLen, ∃ n,
    InTree w.cache.tree.toSkeleton n ∧ 0 < w.cache.tree.lockRef n ∧ slot ∈ w.cache.tree.value n

theorem existsUnique_share {ι α : Type} [DecidableEq ι] [DecidableEq α] {S : Finset ι}
    {f : ι → Multiset α} {M : Multiset α} (hsum : ∑ o ∈ S, f o = M) (hM : M.Nodup) {p : α}
    (hp : p ∈ M) : ∃! o, o ∈ S ∧ p ∈ f o := by
  rw [← hsum, mem_sum] at hp
  obtain ⟨o, ho, hpo⟩ := hp
  refine ⟨o, ⟨ho, hpo⟩, ?_⟩
  rintro o' ⟨ho', hpo'⟩
  by_contra hne
  have hcount := nodup_iff_count_le_one.mp hM p
  rw [← hsum, count_sum', ← Finset.add_sum_erase _ _ ho,
    ← Finset.add_sum_erase _ _ (Finset.mem_erase.mpr ⟨hne, ho'⟩)] at hcount
  have h1 := count_pos.mpr hpo
  have h2 := count_pos.mpr hpo'
  omega

section Owners

def sharePages (cfg : Config) (w : World H B) : Holder → Multiset Int
  | .allocator => w.cache.allocator.pages
  | .node n => pagesOf cfg.pageSize (w.cache.tree.value n)
  | .request i => ((w.live[i]?.map fun r => pagesOf cfg.pageSize r.unprotected).getD [] : List Int)

def holders (w : World H B) (nodes : Finset NodeId) : Finset Holder :=
  insert .allocator (nodes.image .node ∪ (Finset.range w.live.length).image .request)

theorem sum_range_live (pageSize : Nat) (live : List Req) : ∑ i ∈ Finset.range live.length,
      (((live[i]?.map fun r => pagesOf pageSize r.unprotected).getD [] : List Int) : Multiset Int) =
      livePages pageSize live := by
  induction live with
  | nil => simp
  | cons r rest ih =>
    rw [length_cons, Finset.sum_range_succ', livePages_cons, ← ih, add_comm]
    simp

section

variable (h : Owned cfg hf w.cache w.live nodes N P)
include h

theorem sum_sharePages :
    ∑ o ∈ holders w nodes, sharePages cfg w o = (arange 1 N : Multiset Int) := by
  have hnot : Holder.allocator ∉
      nodes.image Holder.node ∪ (Finset.range w.live.length).image Holder.request := by
    simp
  have hdisj : Disjoint (nodes.image Holder.node)
      ((Finset.range w.live.length).image Holder.request) := by
    rw [Finset.disjoint_left]
    simp
  rw [holders, Finset.sum_insert hnot, Finset.sum_union hdisj,
    Finset.sum_image (fun _ _ _ _ heq => by cases heq; rfl),
    Finset.sum_image (fun _ _ _ _ heq => by cases heq; rfl)]
  have hlive := sum_range_live cfg.pageSize w.live
  rw [← h.total, ← h.holds.pages, ← hlive, add_assoc]
  rfl

theorem Owned.exact_unprotected (hr : r ∈ w.live) : Exact cfg.pageSize r.unprotected :=
  (h.reqs r hr).exact.drop cfg.pageSize_pos ((h.reqs r hr).dvd h.inv.shape)

theorem Owned.owns_iff {p : Int} :
    w.Owns cfg p o ↔ o ∈ holders w nodes ∧ p ∈ sharePages cfg w o := by
  cases o with
  | allocator =>
    have hmem : Holder.allocator ∈ holders w nodes := Finset.mem_insert_self _ _
    simp only [World.Owns, sharePages, Paged.pages, mem_add, mem_coe,
      List.mem_map, or_assoc, h.holds.pageSize, hmem, true_and]
  | node n =>
    have hmem : Holder.node n ∈ holders w nodes ↔ n ∈ nodes := by simp [holders]
    rw [hmem]
    simp only [World.Owns, h.inv.shape.inTree_iff]
    exact and_congr_right fun hn => (h.holds.exact n hn).mem_iff.symm
  | request i =>
    have hmem : Holder.request i ∈ holders w nodes ↔ i < w.live.length := by simp [holders]
    rw [hmem]
    simp only [World.Owns, sharePages]
    constructor
    · rintro ⟨r, hget, hslot⟩
      have hr := List.mem_of_getElem? hget
      refine ⟨(List.getElem?_eq_some_iff.mp hget).1, ?_⟩
      rw [hget]
      exact (h.exact_unprotected hr).mem_iff.mpr hslot
    · rintro ⟨hi, hp⟩
      rw [getElem?_eq_getElem hi] at hp ⊢
      exact ⟨_, rfl, (h.exact_unprotected (getElem_mem hi)).mem_iff.mp hp⟩

theorem Owned.share_nodup (ho : o ∈ holders w nodes) : (sharePages cfg w o).Nodup := by
  refine nodup_of_le ?_ (coe_nodup.mpr (nodup_arange 1 N))
  rw [← sum_sharePages h]
  exact Finset.single_le_sum (fun _ _ => zero_le _) ho

theorem Owned.shared (hr : r ∈ w.live) {slot : Int} (hslot : slot ∈ r.row.take r.cacheProtectedLen) :
    ∃ n ∈ nodes, 0 < w.cache.tree.lockRef n ∧ slot ∈ w.cache.tree.value n := by
  obtain ⟨l, hl⟩ := (h.reqs r hr).anchored
  obtain ⟨ns, hspine, hword⟩ := hl.path
  rw [← hl.vals_eq, hword, Trie.word, map_flatMap] at hslot
  obtain ⟨n, hn, hin⟩ := mem_flatMap.mp hslot
  have hmem := (hspine.mem hn).1
  change slot ∈ (w.cache.tree.toSkeleton.label n).map Prod.snd at hin
  rw [h.inv.shape.vals_label hmem] at hin
  exact ⟨n, hmem, h.inv.locked.pos_of_held (mem_map_of_mem hr) hspine hn, hin⟩

end

theorem Owned.partitioned (h : Owned cfg hf w.cache w.live nodes w.cache.allocator.numPages P) :
    w.Partitioned cfg := by
  have hsum := sum_sharePages h
  refine ⟨?_, ?_, ?_, ?_, ?_, ?_⟩
  · intro p hlow hhigh
    have hp : p ∈ (arange 1 w.cache.allocator.numPages : Multiset Int) :=
      mem_coe.mpr (mem_arange.mpr ⟨hlow, by omega⟩)
    have hunique := existsUnique_share hsum (coe_nodup.mpr (nodup_arange _ _)) hp
    simpa only [h.owns_iff] using hunique
  · intro p o hown
    obtain ⟨ho, hp⟩ := h.owns_iff.mp hown
    have hmem : p ∈ (arange 1 w.cache.allocator.numPages : Multiset Int) := by
      rw [← hsum]
      exact mem_sum.mpr ⟨o, ho, hp⟩
    have hrange := mem_arange.mp (mem_coe.mp hmem)
    omega
  · have hnodup := h.share_nodup (Finset.mem_insert_self _ _)
    simpa only [sharePages, Paged.pages, coe_add, coe_nodup, h.holds.pageSize] using hnodup
  · intro n hn
    have hmem := h.inv.shape.inTree_iff.mp hn
    exact (h.holds.exact n hmem).nodup (h.share_nodup (o := .node n) (by simp [holders, hmem]))
  · intro r hr
    obtain ⟨i, hi, rfl⟩ := getElem_of_mem hr
    have hnodup := h.share_nodup (o := .request i) (by simp [holders, hi])
    simp only [sharePages, getElem?_eq_getElem hi] at hnodup
    exact (h.exact_unprotected hr).nodup hnodup
  · intro r hr slot hslot
    obtain ⟨n, hn, hlock, hin⟩ := h.shared hr hslot
    exact ⟨n, h.inv.shape.inTree_iff.mpr hn, hlock, hin⟩

end Owners

/-- In every run in which the tree is thrown away only by `flush_cache`, each page
has exactly one owner at all times, and every further legal act succeeds. -/
theorem kv_slot_ownership [DecidableEq B] {w : World H B}
    (h : World.ReachBy cfg hf (· ≠ .reset) w) :
    w.Partitioned cfg ∧
      ∀ act, w.Legal cfg act → act ≠ .reset → ∃ w', w.step cfg hf act = .ok w' := by
  obtain ⟨nodes, P, hown⟩ := h.owned
  refine ⟨hown.partitioned, ?_⟩
  intro act legal hact
  obtain ⟨w', -, -, hrun, -⟩ := hown.step legal hact
  exact ⟨w', hrun⟩

/-! ## A small run -/

def World.after [DecidableEq B] (cfg : Config) (hf : HashFns H B) (w : World H B) (act : Act) :
    World H B :=
  match w.step cfg hf act with
  | .ok w' => w'
  | .error _ => w

def Req.pair : Req where
  originInputIds := [1, 2]
  outputIds := []
  extraKey := none
  cacheSalt := none
  priority := none
  row := []
  prefixIndices := []
  cacheProtectedLen := 0
  lastNode := 0

def World.prefilled : World Unit Unit :=
  ((init .small 0 8 false).after .small .unit (.admitReq .pair none)).after .small .unit
    (.extend 0 2)

theorem World.prefilled_reach (allowed : Act → Prop) (hopen : allowed (.admitReq .pair none))
    (hextend : allowed (.extend 0 2)) : World.ReachBy .small .unit allowed prefilled := by
  have hfirst : World.ReachBy .small .unit allowed
      ((init .small 0 8 false).after .small .unit (.admitReq .pair none)) :=
    @World.ReachBy.step _ _ _ _ _ _ _ _ (.admitReq .pair none) (.init 0 8 false) trivial hopen rfl
  refine World.ReachBy.step hfirst ?_ hextend rfl
  intro r hr
  cases hr
  exact ⟨rfl, by decide⟩

theorem World.prefilled_canCache (r : Req) (hr : prefilled.live[0]? = some r) :
    World.CanCache .small r 2 := by
  cases hr
  exact ⟨by decide, by decide, by decide⟩

/-- The prompt is in the tree, and the request goes on. -/
theorem kv_slot_ownership_pair :
    (prefilled.after .small .unit (.cacheUnfinished 0 2 false)).Partitioned .small :=
  (kv_slot_ownership (@step _ _ _ _ _ _ _ _ (.cacheUnfinished 0 2 false)
    (prefilled_reach (· ≠ .reset) (by simp) (by simp)) prefilled_canCache (by simp)
    rfl)).1

def World.cached : World Unit Unit := prefilled.after .small .unit (.finish 0 true 2)

/-- `reset` alone forgets the pages of the tree: the allocator never gets them back. -/
theorem reset_leaks_pages :
    World.ReachBy .small .unit (fun _ => True) (cached.after .small .unit .reset) ∧
      1 ≤ (cached.after .small .unit .reset).cache.allocator.numPages ∧
      ∀ o, ¬ (cached.after .small .unit .reset).Owns .small 1 o := by
  have hcached : World.ReachBy .small .unit (fun _ => True) cached :=
    @step _ _ _ _ _ _ _ _ (.finish 0 true 2)
      (prefilled_reach (fun _ => True) trivial trivial) prefilled_canCache trivial rfl
  refine ⟨@step _ _ _ _ _ _ _ _ .reset hcached trivial trivial rfl, by decide, ?_⟩
  intro o hown
  cases o with
  | allocator =>
    rcases hown with hfree | hrelease | ⟨slot, hslot, -⟩
    · exact absurd hfree (by decide)
    · exact absurd hrelease (by decide)
    · exact absurd hslot not_mem_nil
  | node n =>
    obtain ⟨hn, slot, hslot, -⟩ := hown
    have hinv : Inv .small .unit (cached.cache.reset .small)
        {(cached.cache.reset .small).tree.rootNode} [] := reset_spec _
    rw [Finset.mem_singleton.mp (hinv.shape.inTree_iff.mp hn)] at hslot
    exact absurd hslot not_mem_nil
  | request i =>
    obtain ⟨r, hr, -⟩ := hown
    have hlive : (cached.after .small .unit .reset).live = [] := rfl
    rw [hlive] at hr
    simp at hr

end SparkInfer.Radix
