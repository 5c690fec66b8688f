import SparkInfer.Alloc.Paged
import SparkInfer.Lib.Chain
import Mathlib.Algebra.Order.Group.Multiset
import Mathlib.Tactic.Abel

/-!
# Rows of whole pages

A KV row lists the slots of its pages in order; only the last page may be cut
short.  `IsRow` says so with the list of pages made explicit.  The stride slices
of `free_segment` pick one slot of each page of such a row.
-/

namespace SparkInfer.Alloc

open Lib Lib.CommonPrefix List Multiset Nat

variable {p x : Int} {n startPos seqLen k : Nat} {ps qs row : List Int} {a : Paged}

namespace Paged

section Count

variable {m c : Nat}

theorem ceilDiv_zero : ceilDiv 0 k = 0 := by
  cases k with
  | zero => rfl
  | succ k => exact div_eq_of_lt (by simp)

section

variable (hk : 0 < k)
include hk

theorem ceilDiv_le_iff : ceilDiv n k ≤ c ↔ n ≤ c * k := by
  unfold ceilDiv
  rw [div_le_iff_le_mul_add_pred hk, mul_comm]
  omega

theorem le_ceilDiv_mul : n ≤ ceilDiv n k * k := (ceilDiv_le_iff hk).mp le_rfl

theorem ceilDiv_mul_add : ceilDiv (c * k + n) k = c + ceilDiv n k := by
  unfold ceilDiv
  rw [show c * k + n + k - 1 = n + k - 1 + c * k by omega, add_mul_div_right _ _ hk, add_comm]

theorem ceilDiv_mul : ceilDiv (c * k) k = c := by
  have hadd := ceilDiv_mul_add (n := 0) (c := c) hk
  rwa [ceilDiv_zero] at hadd

theorem ceilDiv_mul_of_dvd (h : k ∣ n) : ceilDiv n k * k = n := by
  obtain ⟨c, rfl⟩ := h
  rw [mul_comm k c, ceilDiv_mul hk]

theorem div_lt_ceilDiv (h : n < m) : n / k < ceilDiv m k := by
  rw [div_lt_iff_lt_mul hk]
  exact h.trans_le (le_ceilDiv_mul hk)

theorem ceilDiv_eq_div_add_one (hn : 0 < n) : ceilDiv n k = (n - 1) / k + 1 := by
  unfold ceilDiv
  rw [show n + k - 1 = n - 1 + k by omega, add_div_right _ hk]

theorem ceilDiv_eq_one (hn : 0 < n) (hle : n ≤ k) : ceilDiv n k = 1 := by
  rw [ceilDiv_eq_div_add_one hk hn, div_eq_of_lt (by omega)]

end

theorem ceilDiv_mono (h : n ≤ m) : ceilDiv n k ≤ ceilDiv m k :=
  Nat.div_le_div_right (by omega)

theorem ceilDiv_min : ceilDiv (min n m) k = min (ceilDiv n k) (ceilDiv m k) := by
  rcases le_total n m with h | h
  · rw [min_eq_left h, min_eq_left (ceilDiv_mono h)]
  · rw [min_eq_right h, min_eq_right (ceilDiv_mono h)]

theorem ceilDiv_sub (hk : 0 < k) : ceilDiv (n - c * k) k = ceilDiv n k - c := by
  rcases le_total (c * k) n with h | h
  · conv_rhs => rw [← Nat.add_sub_cancel' h, ceilDiv_mul_add hk, Nat.add_sub_cancel_left]
  · have hle : ceilDiv n k ≤ c := (ceilDiv_le_iff hk).mpr h
    rw [Nat.sub_eq_zero_of_le hle]
    exact div_eq_of_lt (by omega)

end Count

section Stride

variable {α : Type} {xs ys : List α}

@[simp] theorem stride_nil : stride k ([] : List α) = [] := by
  simp [stride]

theorem stride_cons (hk : 0 < k) (x : α) :
    stride k (x :: xs) = x :: stride k ((x :: xs).drop k) := by
  have hcount : ceilDiv (x :: xs).length k = ceilDiv ((x :: xs).drop k).length k + 1 := by
    have hpos := ceilDiv_eq_div_add_one (n := (x :: xs).length) hk (by simp)
    have hsub := ceilDiv_sub (n := (x :: xs).length) (c := 1) hk
    rw [one_mul] at hsub
    rw [length_drop, hsub, hpos, Nat.add_sub_cancel]
  change (List.range (ceilDiv _ k)).filterMap _ = _
  rw [hcount, range_succ_eq_map, List.filterMap_cons]
  simp only [Nat.zero_mul, List.getElem?_cons_zero, List.filterMap_map]
  congr 2
  funext i
  simp only [Function.comp_apply, getElem?_drop]
  rw [succ_mul, Nat.add_comm]

theorem stride_append_page (hk : 0 < k) {p : List α} (hp : p.length = k) (xs : List α) :
    stride k (p ++ xs) = stride k p ++ stride k xs := by
  obtain ⟨x, p, rfl⟩ := exists_cons_of_ne_nil (ne_nil_of_length_pos (hp ▸ hk))
  rw [cons_append, stride_cons hk, stride_cons hk, ← cons_append, ← hp, drop_left,
    drop_length, stride_nil]
  rfl

theorem stride_append (hk : 0 < k) (hxs : k ∣ xs.length) :
    stride k (xs ++ ys) = stride k xs ++ stride k ys := by
  refine Chain.page_induction
    (motive := fun xs => stride k (xs ++ ys) = stride k xs ++ stride k ys) ?nil ?page xs hxs
  case nil => rw [nil_append, stride_nil, nil_append]
  case page =>
      intro p xs hp _ ih
      rw [append_assoc, stride_append_page hk hp, stride_append_page hk hp, ih, append_assoc]

theorem stride_page_take (hk : 0 < k) {p : List α} (hp : p.length = k) (hn : 0 < n) :
    stride k (p.take n) = stride k p := by
  obtain ⟨x, p, rfl⟩ := exists_cons_of_ne_nil (ne_nil_of_length_pos (hp ▸ hk))
  obtain ⟨n, rfl⟩ : ∃ m, n = m + 1 := ⟨n - 1, by omega⟩
  have hdrop : ((x :: p).take (n + 1)).drop k = [] := by
    apply drop_eq_nil_of_le
    rw [← hp]
    exact length_take_le' _ _
  rw [take_succ_cons] at hdrop ⊢
  rw [stride_cons hk, stride_cons hk, hdrop, ← hp, drop_length]

end Stride

section Slots

@[simp] theorem length_arange (lo : Int) : (arange lo n).length = n := by
  simp [arange]

theorem arange_take (lo : Int) (n m : Nat) : (arange lo n).take m = arange lo (min m n) := by
  rw [arange, ← map_take, take_range]
  rfl

theorem arange_drop (lo : Int) (n m : Nat) : (arange lo n).drop m = arange (lo + m) (n - m) := by
  apply ext_getElem?
  intro i
  simp only [arange, getElem?_drop, getElem?_map]
  rcases lt_or_ge i (n - m) with h | h
  · rw [getElem?_range (by omega), getElem?_range h]
    simp
    ring
  · rw [getElem?_eq_none (by simp; omega), getElem?_eq_none (by simp; omega)]
    rfl

theorem nodup_arange (lo : Int) (n : Nat) : (arange lo n).Nodup := by
  refine List.Nodup.map ?_ nodup_range
  intro i j hij
  simpa using hij

theorem mem_arange {lo : Int} : p ∈ arange lo n ↔ lo ≤ p ∧ p < lo + n := by
  simp only [arange, List.mem_map, List.mem_range]
  constructor
  · rintro ⟨i, hi, rfl⟩
    omega
  · rintro ⟨hlo, hhi⟩
    exact ⟨(p - lo).toNat, by omega, by omega⟩

@[simp] theorem pageSlots_nil : pageSlots k [] = [] := rfl

@[simp] theorem pageSlots_cons : pageSlots k (p :: ps) = arange (p * k) k ++ pageSlots k ps := rfl

@[simp] theorem pageSlots_append : pageSlots k (ps ++ qs) = pageSlots k ps ++ pageSlots k qs := by
  simp [pageSlots]

@[simp] theorem length_pageSlots : (pageSlots k ps).length = ps.length * k := by
  induction ps with
  | nil => simp
  | cons p ps ih =>
    rw [pageSlots_cons, length_append, length_arange, ih, length_cons]
    ring

theorem pageSlots_cut (c : Nat) : (pageSlots k ps).take (c * k) = pageSlots k (ps.take c) ∧
    (pageSlots k ps).drop (c * k) = pageSlots k (ps.drop c) := by
  rcases le_total c ps.length with h | h
  · have hlen : (pageSlots k (ps.take c)).length = c * k := by
      rw [length_pageSlots, length_take_of_le h]
    have hsplit : pageSlots k ps = pageSlots k (ps.take c) ++ pageSlots k (ps.drop c) := by
      rw [← pageSlots_append, take_append_drop]
    rw [hsplit, ← hlen]
    exact ⟨take_left, drop_left⟩
  · have hlen : (pageSlots k ps).length ≤ c * k := length_pageSlots.trans_le (mul_le_mul_right k h)
    rw [take_of_length_le hlen, drop_of_length_le hlen, take_of_length_le h, drop_of_length_le h]
    exact ⟨rfl, rfl⟩

theorem getElem?_pageSlots {j : Nat} (hj : j < ps.length * k) :
    (pageSlots k ps)[j]? = some (ps.getD (j / k) 0 * k + (j % k : Nat)) := by
  have hk : 0 < k := pos_of_ne_zero fun h => by simp [h] at hj
  induction ps generalizing j with
  | nil => simp at hj
  | cons p ps ih =>
    rw [pageSlots_cons]
    rcases lt_or_ge j k with hlt | hge
    · rw [getElem?_append_left (by simpa using hlt), arange, getElem?_map,
        getElem?_range hlt, div_eq_of_lt hlt, mod_eq_of_lt hlt]
      rfl
    obtain ⟨i, rfl⟩ : ∃ i, j = i + k := ⟨j - k, by omega⟩
    have hi : i < ps.length * k := by
      rw [length_cons, succ_mul] at hj
      omega
    rw [getElem?_append_right (by simp), length_arange, Nat.add_sub_cancel, ih hi,
      add_div_right _ hk, add_mod_right, getD_cons_succ]

theorem div_slot {r : Nat} (hr : r < k) : (p * k + r) / (k : Int) = p := by
  rw [Int.add_comm, Int.add_mul_ediv_right _ _ (by omega), Int.ediv_eq_zero_of_lt (by omega)
    (by omega), zero_add]

theorem nodup_pageSlots (hps : ps.Nodup) : (pageSlots k ps).Nodup := by
  unfold pageSlots
  rw [nodup_flatMap]
  refine ⟨fun p _ => nodup_arange _ _, hps.imp ?_⟩
  intro p q hpq slot hp hq
  obtain ⟨i, hi, rfl⟩ := mem_map.mp hp
  obtain ⟨j, hj, heq⟩ := mem_map.mp hq
  apply hpq
  rw [← div_slot (p := p) (List.mem_range.mp hi), ← heq, div_slot (List.mem_range.mp hj)]

theorem mem_pageSlots (hx : x ∈ pageSlots k ps) : x / (k : Int) ∈ ps := by
  obtain ⟨p, hp, hin⟩ := mem_flatMap.mp hx
  obtain ⟨r, hr, rfl⟩ := mem_map.mp hin
  rwa [div_slot (List.mem_range.mp hr)]

end Slots

/-! ## Rows -/

/-- `xs` lists the slots of the pages `ps`, the last of them possibly cut short. -/
structure IsRow (k : Nat) (xs : List Int) (ps : List Int) : Prop where
  eq : xs = (pageSlots k ps).take xs.length
  len : ps.length = ceilDiv xs.length k

/-- The pages `free_segment` gives back for a segment that starts a page. -/
def pagesOf (k : Nat) (xs : List Int) : List Int := (stride k xs).map (· / (k : Int))

section Rows

variable {xs ys : List Int} (hk : 0 < k)

theorem IsRow.nil : IsRow k [] [] := ⟨rfl, ceilDiv_zero.symm⟩

theorem IsRow.mem (h : IsRow k xs ps) (hx : x ∈ xs) : x / (k : Int) ∈ ps := by
  rw [h.eq] at hx
  exact mem_pageSlots (mem_of_mem_take hx)

include hk

theorem IsRow.whole (h : IsRow k xs ps) (hd : k ∣ xs.length) : xs = pageSlots k ps := by
  have hlen : ps.length * k = xs.length := by rw [h.len, ceilDiv_mul_of_dvd hk hd]
  rw [h.eq, ← hlen, (pageSlots_cut _).1, take_length]

theorem isRow_pageSlots : IsRow k (pageSlots k ps) ps := by
  refine ⟨take_length.symm, ?_⟩
  rw [length_pageSlots, ceilDiv_mul hk]

theorem IsRow.append (h : IsRow k xs ps) (hd : k ∣ xs.length) (h' : IsRow k ys qs) :
    IsRow k (xs ++ ys) (ps ++ qs) := by
  have hxs := h.whole hk hd
  refine ⟨?_, ?_⟩
  · rw [pageSlots_append, ← hxs, length_append, take_length_add_append, ← h'.eq]
  · obtain ⟨c, hc⟩ := hd
    rw [length_append, length_append, h.len, h'.len, hc, mul_comm k c,
      ceilDiv_mul hk, ceilDiv_mul_add hk]

theorem IsRow.take (h : IsRow k xs ps) (n : Nat) : IsRow k (xs.take n) (ps.take (ceilDiv n k)) := by
  refine ⟨?_, ?_⟩
  · have hle : n ≤ ceilDiv n k * k := le_ceilDiv_mul hk
    rw [← (pageSlots_cut _).1, take_take, length_take]
    conv_lhs => rw [h.eq, take_take]
    congr 1
    omega
  · rw [length_take, length_take, ceilDiv_min, h.len]

theorem IsRow.drop (h : IsRow k xs ps) (c : Nat) : IsRow k (xs.drop (c * k)) (ps.drop c) := by
  refine ⟨?_, ?_⟩
  · rw [← (pageSlots_cut _).2, length_drop]
    conv_lhs => rw [h.eq, drop_take]
  · rw [length_drop, length_drop, h.len, ceilDiv_sub hk]

theorem pagesOf_page (p : Int) : pagesOf k (arange (p * k) k) = [p] := by
  obtain ⟨j, rfl⟩ : ∃ j, k = j + 1 := ⟨k - 1, by omega⟩
  have hhead : arange (p * (j + 1 : Nat)) (j + 1) =
      p * (j + 1 : Nat) :: (arange (p * (j + 1 : Nat)) (j + 1)).tail := by
    simp [arange, range_succ_eq_map]
  rw [pagesOf, hhead, stride_cons hk, ← hhead, drop_eq_nil_of_le (length_arange _).le, stride_nil,
    List.map_cons, map_nil, Int.mul_ediv_cancel _ (by omega)]

theorem IsRow.pagesOf_eq (h : IsRow k xs ps) : pagesOf k xs = ps := by
  induction ps generalizing xs with
  | nil =>
    have hnil := h.eq
    rw [pageSlots_nil, take_nil] at hnil
    rw [hnil, pagesOf, stride_nil]
    rfl
  | cons p ps ih =>
    have hlen : ps.length + 1 = ceilDiv xs.length k := h.len
    have hsplit := h.eq
    rw [pageSlots_cons] at hsplit
    rcases lt_or_ge k xs.length with hlt | hle
    · -- a whole page, then the rest of the row
      have hrest : IsRow k (xs.drop k) ps := by
        have hdrop := h.drop hk 1
        rwa [one_mul, drop_one] at hdrop
      have hxs : xs = arange (p * k) k ++ xs.drop k := by
        have htake : xs.take k = arange (p * k) k := by
          rw [hsplit, take_take, min_eq_left hlt.le, take_left' (length_arange _)]
        rw [← htake, take_append_drop]
      rw [hxs, pagesOf, stride_append_page hk (length_arange _), map_append]
      change pagesOf k _ ++ pagesOf k _ = _
      rw [pagesOf_page hk, ih hrest]
      rfl
    · -- only one page, possibly cut
      have hone : ceilDiv xs.length k ≤ 1 := (ceilDiv_le_iff hk).mpr (by omega)
      have hnil : ps = [] := eq_nil_of_length_eq_zero (by omega)
      have hpos : 0 < xs.length := by
        by_contra hzero
        rw [Nat.eq_zero_of_not_pos hzero, ceilDiv_zero] at hlen
        omega
      subst hnil
      rw [pageSlots_nil, append_nil] at hsplit
      rw [hsplit, pagesOf, stride_page_take hk (length_arange _) hpos]
      exact pagesOf_page hk p

def Exact (k : Nat) (xs : List Int) : Prop := IsRow k xs (pagesOf k xs)

theorem IsRow.exact (h : IsRow k xs ps) : Exact k xs := by
  rwa [Exact, h.pagesOf_eq hk]

omit hk in
theorem Exact.nil : Exact k [] := by
  rw [Exact, pagesOf, stride_nil]
  exact .nil

theorem Exact.append (h : Exact k xs) (hd : k ∣ xs.length) (h' : Exact k ys) : Exact k (xs ++ ys) :=
  (IsRow.append hk h hd h').exact hk

theorem Exact.take (h : Exact k xs) (n : Nat) : Exact k (xs.take n) := (IsRow.take hk h n).exact hk

theorem Exact.drop (h : Exact k xs) (hn : k ∣ n) : Exact k (xs.drop n) := by
  obtain ⟨c, rfl⟩ := hn
  rw [mul_comm]
  exact (IsRow.drop hk h c).exact hk

theorem pagesOf_append (hd : k ∣ xs.length) : pagesOf k (xs ++ ys) = pagesOf k xs ++ pagesOf k ys := by
  rw [pagesOf, stride_append hk hd, map_append]
  rfl

theorem pagesOf_cut (xs : List Int) (hn : k ∣ n) :
    pagesOf k xs = pagesOf k (xs.take n) ++ pagesOf k (xs.drop n) := by
  rcases le_total n xs.length with hle | hle
  · conv_lhs => rw [← take_append_drop n xs]
    exact pagesOf_append hk (by rwa [length_take_of_le hle])
  · rw [take_of_length_le hle, drop_of_length_le hle, pagesOf, pagesOf, stride_nil,
      map_nil, append_nil]

theorem Exact.pagesOf_ceil (h : Exact k xs) (n : Nat) :
    pagesOf k xs = pagesOf k (xs.take n) ++ pagesOf k (xs.drop (ceilDiv n k * k)) := by
  rw [(IsRow.take hk h n).pagesOf_eq hk, (IsRow.drop hk h (ceilDiv n k)).pagesOf_eq hk,
    take_append_drop]

omit hk in
theorem mem_of_mem_pagesOf (hp : p ∈ pagesOf k xs) : ∃ x ∈ xs, x / (k : Int) = p := by
  obtain ⟨x, hx, rfl⟩ := mem_map.mp hp
  obtain ⟨i, -, hi⟩ := mem_filterMap.mp hx
  exact ⟨x, mem_of_getElem? hi, rfl⟩

omit hk in
theorem Exact.mem_iff (h : Exact k xs) : p ∈ pagesOf k xs ↔ ∃ slot ∈ xs, slot / (k : Int) = p :=
  ⟨mem_of_mem_pagesOf, fun ⟨_, hslot, hp⟩ => hp ▸ IsRow.mem h hslot⟩

omit hk in
theorem Exact.nodup (h : Exact k xs) (hps : (pagesOf k xs).Nodup) : xs.Nodup := by
  rw [IsRow.eq h]
  exact (nodup_pageSlots hps).sublist (take_sublist _ _)

theorem pagesOf_drop_cut (xs : List Int) {p e : Nat} (hp : k ∣ p) (he : k ∣ e) (hpe : p ≤ e) :
    (pagesOf k (xs.drop p) : Multiset Int) =
      (pagesOf k (slice xs p e) : Multiset Int) + (pagesOf k (xs.drop e) : Multiset Int) := by
  have hcut := pagesOf_cut hk (xs.drop p) (Nat.dvd_sub he hp)
  rw [drop_drop, Nat.add_sub_cancel' hpe, ← drop_take] at hcut
  rw [hcut]
  rfl

theorem Exact.pagesOf_tail {p : Nat} (h : Exact k xs) (hp : k ∣ p) (hpn : p ≤ n) :
    (pagesOf k (xs.drop p) : Multiset Int) = (pagesOf k ((xs.take n).drop p) : Multiset Int) +
        (pagesOf k (xs.drop (ceilDiv n k * k)) : Multiset Int) := by
  have hceil := (h.drop hk hp).pagesOf_ceil hk (n - p)
  have hend : p + ceilDiv (n - p) k * k = ceilDiv n k * k := by
    obtain ⟨c, rfl⟩ := hp
    have hle : c ≤ ceilDiv n k := by
      have hcover : n ≤ ceilDiv n k * k := le_ceilDiv_mul hk
      rw [mul_comm] at hpn
      exact le_of_mul_le_mul_right (hpn.trans hcover) hk
    rw [Nat.mul_comm k c, ceilDiv_sub hk, Nat.sub_mul]
    exact Nat.add_sub_cancel' (Nat.mul_le_mul_right k hle)
  rw [drop_drop, hend, ← drop_take] at hceil
  rw [hceil, ← coe_add]

end Rows

/-! ## What the allocator holds -/

/-- The pages the allocator holds, those of an open free group included. -/
def pages (a : Paged) : Multiset Int :=
  (a.freePages : Multiset Int) + (a.releasePages : Multiset Int) +
    ((a.freePageRepsGroup.flatten.map (· / (a.pageSize : Int)) : List Int) : Multiset Int)

/-- Nothing waits in the group of `free`, and page representatives wait only while
a group is open. -/
structure Sane (a : Paged) : Prop where
  pending : a.freeGroup.getD [] = []
  closed : a.freeGroup = none → a.freePageRepsGroup = []

structure Gains (a a' : Paged) (ids : Multiset Int) : Prop where
  pages : a'.pages = a.pages + ids
  pageSize : a'.pageSize = a.pageSize
  numPages : a'.numPages = a.numPages
  sane : a.Sane → a'.Sane

section Gains

variable {a' a'' : Paged} {ids ids' : Multiset Int}

theorem Gains.refl (a : Paged) : Gains a a 0 := ⟨by simp, rfl, rfl, id⟩

theorem Gains.trans (h : Gains a a' ids) (h' : Gains a' a'' ids') : Gains a a'' (ids + ids') := by
  refine ⟨?_, h'.pageSize.trans h.pageSize, h'.numPages.trans h.numPages,
    fun hs => h'.sane (h.sane hs)⟩
  rw [h'.pages, h.pages, add_assoc]

theorem gains_releasePageIds (a : Paged) (pageIds : List Int) :
    Gains a (a.releasePageIds pageIds) pageIds := by
  unfold releasePageIds
  split_ifs
  all_goals
    refine ⟨?_, rfl, rfl, fun hs => ⟨hs.pending, hs.closed⟩⟩
    simp only [pages, ← coe_add]
    abel

theorem gains_freeSegment_pieces (a : Paged) {xs : List Int} (hxs : xs ≠ []) (startPos : Nat) :
    Gains a (a.freeSegment xs startPos)
      ((pieces a.pageSize xs startPos).flatMap fun p => p.map (· / (a.pageSize : Int)) : List Int) := by
  unfold freeSegment
  rw [if_neg hxs]
  cases hgroup : a.freeGroup with
  | none => exact gains_releasePageIds a _
  | some pending =>
    refine ⟨?_, rfl, rfl, fun hs => ⟨?_, fun hnone => ?_⟩⟩
    · simp only [pages, flatten_append, map_append, ← coe_add, map_flatten]
      abel
    · have hpending := hs.pending
      rwa [hgroup] at hpending
    · cases hnone

theorem gains_freeSegment (a : Paged) (xs : List Int) (hd : a.pageSize ∣ startPos) :
    Gains a (a.freeSegment xs startPos) (pagesOf a.pageSize xs : Multiset Int) := by
  by_cases hxs : xs = []
  · rw [freeSegment, hxs, pagesOf, stride_nil]
    exact .refl a
  have hpieces : pieces a.pageSize xs startPos = [stride a.pageSize xs] := by
    simp [pieces, mod_eq_zero_of_dvd hd]
  have hgains := gains_freeSegment_pieces a hxs startPos
  rwa [hpieces, flatMap_singleton] at hgains

theorem gains_freeSegments_one (a : Paged) (xs : List Int) (hd : a.pageSize ∣ startPos) :
    Gains a (a.freeSegments [(xs, startPos)]) (pagesOf a.pageSize xs : Multiset Int) := by
  unfold freeSegments freeSegmentsFrom
  by_cases hxs : xs = []
  · rw [hxs, pagesOf, stride_nil]
    exact .refl a
  · rw [if_neg hxs]
    exact gains_freeSegment a xs hd

theorem gains_freeSegments (a : Paged) (hk : 0 < a.pageSize) (xs ys : List Int) {s t : Nat}
    (hs : a.pageSize ∣ s) (ht : a.pageSize ∣ t) (hst : s + xs.length ≤ t) :
    Gains a (a.freeSegments [(xs, s), (ys, t)])
      ((pagesOf a.pageSize xs : Multiset Int) + (pagesOf a.pageSize ys : Multiset Int)) := by
  by_cases hxs : xs = []
  · have hskip : a.freeSegments [(xs, s), (ys, t)] = a.freeSegments [(ys, t)] := by
      simp [freeSegments, freeSegmentsFrom, hxs]
    rw [hskip, hxs, pagesOf]
    simpa using gains_freeSegments_one a ys ht
  have hfirst := gains_freeSegment a xs hs
  have hpos := length_pos_of_ne_nil hxs
  -- the second segment starts a page, so it shares none with the first
  have hshare : (t / a.pageSize == (s + xs.length - 1) / a.pageSize) = false := by
    obtain ⟨c, rfl⟩ := ht
    rw [Nat.mul_div_cancel_left _ hk, beq_eq_false_iff_ne]
    have hlt : (s + xs.length - 1) / a.pageSize < c := by
      rw [Nat.div_lt_iff_lt_mul hk, Nat.mul_comm]
      omega
    omega
  have hrun : a.freeSegments [(xs, s), (ys, t)] =
      if ys = [] then a.freeSegment xs s else (a.freeSegment xs s).freeSegment ys t := by
    simp only [freeSegments, freeSegmentsFrom, hxs, if_false, Bool.false_eq_true,
      hfirst.pageSize, hshare]
  rw [hrun]
  by_cases hys : ys = []
  · rw [hys]
    simpa [pagesOf] using hfirst
  rw [if_neg hys]
  have hsecond := gains_freeSegment (a.freeSegment xs s) ys (hfirst.pageSize.symm ▸ ht)
  rw [hfirst.pageSize] at hsecond
  exact hfirst.trans hsecond

theorem gains_mergeAndSortFree (a : Paged) : Gains a a.mergeAndSortFree 0 := by
  unfold mergeAndSortFree
  split_ifs
  · refine ⟨?_, rfl, rfl, fun hs => ⟨hs.pending, hs.closed⟩⟩
    have hperm : ((a.freePages ++ a.releasePages).mergeSort : Multiset Int) =
        a.freePages + a.releasePages := by
      exact coe_eq_coe.mpr (mergeSort_perm _ _)
    simp only [pages, hperm]
    simp
  · exact .refl a

theorem gains_freeGroupBegin (hs : a.Sane) (hclosed : a.freeGroup = none) :
    Gains a a.freeGroupBegin 0 := by
  refine ⟨?_, rfl, rfl, fun _ => ⟨rfl, fun h => by cases h⟩⟩
  simp [pages, freeGroupBegin, hs.closed hclosed]

theorem gains_freeGroupEnd (hs : a.Sane) : Gains a a.freeGroupEnd 0 := by
  have hreset : Gains { a with freeGroup := none, freePageRepsGroup := [] }
      a.freeGroupEnd (a.freePageRepsGroup.flatten.map (· / a.pageSize) : List Int) := by
    unfold freeGroupEnd
    simp only [hs.pending, if_true]
    split_ifs with hreps
    · rw [hreps]
      exact .refl _
    have hrelease := gains_releasePageIds { a with freeGroup := none, freePageRepsGroup := [] }
      (a.freePageRepsGroup.flatten.map (· / a.pageSize))
    convert hrelease using 1
    unfold releasePageIds
    split_ifs <;> rfl
  refine { hreset with pages := ?_, sane := fun _ => hreset.sane ⟨rfl, fun _ => rfl⟩ }
  rw [hreset.pages]
  simp [pages]

end Gains

section Extend

variable (hk : 0 < k)
include hk

theorem IsRow.rest_of_last (h : IsRow k row ps) : (pageSlots k ps).drop row.length =
      arange (row.getLast?.getD (-1) + 1) (ps.length * k - row.length) := by
  rcases eq_nil_or_concat ps with rfl | ⟨before, p, rfl⟩
  · simp [arange]
  rw [concat_eq_append] at h ⊢
  have hlen : before.length + 1 = ceilDiv row.length k := by simpa using h.len
  have hup : row.length ≤ (before.length + 1) * k := hlen ▸ le_ceilDiv_mul hk
  have hlow : before.length * k < row.length := by
    by_contra hle
    have hc : ceilDiv row.length k ≤ before.length := (ceilDiv_le_iff hk).mpr (by omega)
    omega
  obtain ⟨j, hj⟩ : ∃ j, row.length = before.length * k + (j + 1) :=
    ⟨row.length - before.length * k - 1, by omega⟩
  rw [succ_mul] at hup
  have hslots : pageSlots k (before ++ [p]) = pageSlots k before ++ arange (p * k) k := by
    rw [pageSlots_append, pageSlots_cons, pageSlots_nil, append_nil]
  have hblen : (pageSlots k before).length = before.length * k := length_pageSlots
  have hlast : row.getLast? = some (p * k + j) := by
    have hget : row[before.length * k + j]? = some (p * k + j) := by
      rw [h.eq, getElem?_take_of_lt (by omega), hslots,
        getElem?_append_right (by omega), hblen, Nat.add_sub_cancel_left, arange,
        getElem?_map, getElem?_range (by omega)]
      rfl
    rw [getLast?_eq_getElem?, hj, ← hget]
    rfl
  rw [hlast, Option.getD_some, hslots, hj, ← hblen, drop_length_add_append, arange_drop,
    length_append, length_singleton, succ_mul]
  congr 1
  · push_cast
    ring
  · omega

theorem IsRow.fill (h : IsRow k row ps) (hle : row.length ≤ n) (hn : n ≤ ps.length * k) :
    row ++ arange (row.getLast?.getD (-1) + 1) (n - row.length) = (pageSlots k ps).take n := by
  have hsum := Nat.add_sub_cancel' hle
  conv_rhs => rw [← hsum, take_add, ← h.eq, h.rest_of_last hk, arange_take]
  rw [Nat.min_eq_left (by omega)]

/-- `alloc_extend` continues a row with fresh pages. -/
theorem IsRow.extend (h : IsRow k row ps) {freePages : List Int} (hle : row.length ≤ seqLen)
    (hfree : numNewPages k row.length seqLen ≤ freePages.length) :
    (row ++ extendIndices k row.length seqLen (row.getLast?.getD (-1)) freePages).length = seqLen ∧
      IsRow k (row ++ extendIndices k row.length seqLen (row.getLast?.getD (-1)) freePages)
        (ps ++ freePages.take (numNewPages k row.length seqLen)) := by
  have hc := h.len.symm
  have hcover : row.length ≤ ps.length * k := hc ▸ le_ceilDiv_mul hk
  have hmono : ps.length ≤ ceilDiv seqLen k := hc ▸ ceilDiv_mono hle
  have hnew : numNewPages k row.length seqLen = ceilDiv seqLen k - ps.length := by
    rw [numNewPages, hc]
  have hslots : row ++ extendIndices k row.length seqLen (row.getLast?.getD (-1)) freePages =
      (pageSlots k (ps ++ freePages.take (numNewPages k row.length seqLen))).take seqLen := by
    unfold extendIndices
    simp only [hc]
    rcases lt_or_ge (ps.length * k) seqLen with hlt | hge
    · -- past the last page: whole new pages, then the head of one more
      have hmin := min_eq_right hlt.le
      have hfill := h.fill hk hcover le_rfl
      rw [← length_pageSlots, take_length, length_pageSlots] at hfill
      have hq : ps.length ≤ seqLen / k := (le_div_iff_mul_le hk).mpr hlt.le
      obtain ⟨q, hq⟩ : ∃ q, seqLen / k = ps.length + q := ⟨seqLen / k - ps.length, by omega⟩
      have hseq : seqLen = ps.length * k + (q * k + seqLen % k) := by
        have hdiv := div_add_mod' seqLen k
        rw [hq, add_mul] at hdiv
        omega
      have hr : seqLen % k < k := mod_lt _ hk
      have hceil : ceilDiv seqLen k - ps.length = q + ceilDiv (seqLen % k) k := by
        conv_lhs => rw [hseq, ceilDiv_mul_add hk, ceilDiv_mul_add hk]
        omega
      have hne : row.length + (ps.length * k - row.length) ≠ seqLen := by omega
      rw [hmin, if_neg hne, hq, Nat.add_sub_cancel_left, hnew, hceil, pageSlots_append]
      rw [hnew, hceil] at hfree
      split_ifs
      · -- the new pages are whole
        have hzero : seqLen % k = 0 := by omega
        rw [← append_assoc, hfill, hzero, ceilDiv_zero]
        refine (take_of_length_le ?_).symm
        rw [length_append, length_pageSlots, length_pageSlots, length_take]
        rw [hzero, ceilDiv_zero, add_zero] at hfree
        rw [min_eq_left hfree]
        omega
      have hceil1 : ceilDiv (seqLen % k) k = 1 := ceilDiv_eq_one hk (by omega) (by omega)
      rw [hceil1] at hfree ⊢
      have hlast : seqLen - seqLen / k * k = seqLen % k := by
        have hdiv := div_add_mod' seqLen k
        omega
      rw [hq] at hlast
      have hget : freePages.take (q + 1) = freePages.take q ++ [freePages.getD q 0] := by
        rw [take_add_one, getD_eq_getElem?_getD]
        have hqlt : q < freePages.length := by omega
        rw [getElem?_eq_getElem hqlt]
        rfl
      rw [hlast, ← append_assoc, ← append_assoc, hfill, hget, pageSlots_append,
        pageSlots_cons, pageSlots_nil, append_nil]
      have hqlen : (pageSlots k (freePages.take q)).length = q * k := by
        rw [length_pageSlots, length_take, min_eq_left (by omega)]
      conv_rhs => rw [hseq]
      rw [← length_pageSlots, take_length_add_append, ← hqlen,
        take_length_add_append, arange_take, min_eq_left hr.le, append_assoc]
    · -- the last page has room
      have hmin := min_eq_left hge
      have hzero := Nat.sub_eq_zero_of_le ((ceilDiv_le_iff hk).mpr hge)
      rw [hmin, if_pos (by omega), hnew, hzero, take_zero, append_nil]
      exact h.fill hk hle hge
  have hlen : (row ++ extendIndices k row.length seqLen (row.getLast?.getD (-1))
      freePages).length = seqLen := by
    rw [hslots, length_take, length_pageSlots, length_append, length_take,
      Nat.min_eq_left hfree, hnew, Nat.add_sub_cancel' hmono]
    exact min_eq_left (le_ceilDiv_mul hk)
  refine ⟨hlen, ?_, ?_⟩
  · rw [hlen, hslots]
  · rw [hlen, length_append, length_take, Nat.min_eq_left hfree, hnew, Nat.add_sub_cancel' hmono]

end Extend

structure Loses (a a' : Paged) (ids : List Int) : Prop where
  pages : a.pages = a'.pages + (ids : Multiset Int)
  pageSize : a'.pageSize = a.pageSize
  numPages : a'.numPages = a.numPages
  sane : a.Sane → a'.Sane

theorem loses_mergeAndSortFree (a : Paged) : Loses a a.mergeAndSortFree [] := by
  have h := gains_mergeAndSortFree a
  refine { h with pages := ?_ }
  rw [h.pages]
  simp

theorem loses_take (a : Paged) (n : Nat) :
    Loses a { a with freePages := a.freePages.drop n } (a.freePages.take n) := by
  refine ⟨?_, rfl, rfl, fun hs => ⟨hs.pending, hs.closed⟩⟩
  have hsplit : a.freePages =
      (a.freePages.drop n : Multiset Int) + (a.freePages.take n : Multiset Int) := by
    rw [coe_add, coe_eq_coe]
    conv_lhs => rw [← take_append_drop n a.freePages]
    exact perm_append_comm
  simp only [pages]
  rw [hsplit]
  abel

theorem Loses.refl (a : Paged) : Loses a a [] := ⟨by simp, rfl, rfl, id⟩

/-- What an allocation for a row does: it fails without losing a page, or the pages
of the new slots move from the allocator to the row. -/
inductive Extends (a : Paged) (row : List Int) (seqLen : Nat) : Option (List Int) × Paged → Prop
  | failed {a' : Paged} (hloses : Loses a a' []) : Extends a row seqLen (none, a')
  | extended {out new : List Int} {a' : Paged} (hloses : Loses a a' new)
      (hlen : (row ++ out).length = seqLen) (hexact : Exact a.pageSize (row ++ out))
      (hpages : pagesOf a.pageSize (row ++ out) = pagesOf a.pageSize row ++ new) :
      Extends a row seqLen (some out, a')

section Extends

variable {a₁ : Paged}

theorem extends_take (hmerge : Loses a a₁ []) {out : List Int} (hlen : (row ++ out).length = seqLen)
    (hexact : Exact a.pageSize (row ++ out))
    (hpages : pagesOf a.pageSize (row ++ out) = pagesOf a.pageSize row ++ a₁.freePages.take n) :
    Extends a row seqLen (some out, { a₁ with freePages := a₁.freePages.drop n }) := by
  have htake := loses_take a₁ n
  refine .extended { hmerge with pages := ?_, sane := fun hs => htake.sane (hmerge.sane hs) }
    hlen hexact hpages
  rw [hmerge.pages, htake.pages]
  simp

theorem loses_merge_if (a : Paged) (b : Bool) :
    Loses a (if b then a.mergeAndSortFree else a) [] := by
  split_ifs
  · exact loses_mergeAndSortFree a
  · exact .refl a

theorem extendIndices_succ (hk : 1 < k) (lastLoc : Int) (freePages : List Int) :
    extendIndices k n (n + 1) lastLoc freePages =
      if numNewPages k n (n + 1) = 0 then [lastLoc + 1] else [freePages.getD 0 0 * k] := by
  have hk0 : 0 < k := by omega
  have hcover : n ≤ ceilDiv n k * k := le_ceilDiv_mul hk0
  have hroom : numNewPages k n (n + 1) = 0 ↔ n + 1 ≤ ceilDiv n k * k := by
    rw [numNewPages, Nat.sub_eq_zero_iff_le, ceilDiv_le_iff hk0]
  simp only [hroom]
  unfold extendIndices
  split_ifs with hle
  · rw [min_eq_left hle]
    simp [arange]
  · -- the row ends at a page boundary
    have hn : n = ceilDiv n k * k := by omega
    have hdiv : (n + 1) / k = ceilDiv n k := by
      conv_lhs => rw [hn]
      rw [add_comm, add_mul_div_right _ _ hk0, div_eq_of_lt hk, zero_add]
    simp only [hdiv, ← hn]
    simp [arange]

theorem numNewPages_succ (hk : 1 < k) :
    numNewPages k n (n + 1) = if (n + 1) % k = 1 then 1 else 0 := by
  have hk0 : 0 < k := by omega
  obtain ⟨q, r, hr, rfl⟩ : ∃ q r, r < k ∧ n = q * k + r :=
    ⟨n / k, n % k, mod_lt _ hk0, (div_add_mod' n k).symm⟩
  have hmod : (q * k + r + 1) % k = (r + 1) % k := by
    rw [add_assoc, mul_comm, mul_add_mod]
  have hlow : ceilDiv (r + 1) k = 1 := ceilDiv_eq_one hk0 (by omega) (by omega)
  rw [numNewPages, hmod, add_assoc, ceilDiv_mul_add hk0, ceilDiv_mul_add hk0, hlow]
  rcases Nat.eq_zero_or_pos r with rfl | hpos
  · rw [ceilDiv_zero, mod_eq_of_lt hk, if_pos rfl]
    omega
  have hone : ceilDiv r k = 1 := ceilDiv_eq_one hk0 hpos (by omega)
  have hmod1 : (r + 1) % k ≠ 1 := by
    rcases lt_or_ge (r + 1) k with hlt | hge
    · rw [mod_eq_of_lt hlt]
      omega
    · rw [show r + 1 = k by omega, mod_self]
      omega
  rw [if_neg hmod1]
  omega

variable (hk : 0 < a.pageSize) (h : Exact a.pageSize row)
include hk h

theorem extends_extendIndices (hmerge : Loses a a₁ []) (hle : row.length ≤ seqLen)
    (hfree : numNewPages a.pageSize row.length seqLen ≤ a₁.freePages.length) : Extends a row seqLen
      (some (extendIndices a.pageSize row.length seqLen (row.getLast?.getD (-1)) a₁.freePages),
        { a₁ with freePages := a₁.freePages.drop (numNewPages a.pageSize row.length seqLen) }) := by
  obtain ⟨hlen, hrow⟩ := IsRow.extend hk h hle hfree
  exact extends_take hmerge hlen (hrow.exact hk) (hrow.pagesOf_eq hk)

theorem allocExtend_spec (hle : row.length ≤ seqLen) :
    Extends a row seqLen (a.allocExtend row.length seqLen (row.getLast?.getD (-1))) := by
  have hmerge := loses_merge_if a (a.needSort &&
    a.freePages.length < (seqLen - row.length) / a.pageSize + 1 + 1)
  unfold allocExtend
  simp only
  generalize (if (a.needSort && decide (a.freePages.length <
    (seqLen - row.length) / a.pageSize + 1 + 1)) = true then a.mergeAndSortFree else a) = a₁
    at hmerge ⊢
  split_ifs with hfail
  · exact .failed hmerge
  · rw [hmerge.pageSize, not_lt] at hfail
    simpa only [hmerge.pageSize] using extends_extendIndices hk h hmerge hle hfail

theorem allocDecode_spec (hone : 1 < a.pageSize) :
    Extends a row (row.length + 1) (a.allocDecode (row.length + 1) (row.getLast?.getD (-1))) := by
  have hmerge := loses_merge_if a (a.needSort && a.freePages.length < 1)
  unfold allocDecode
  generalize (if (a.needSort && decide (a.freePages.length < 1)) = true then
    a.mergeAndSortFree else a) = a₁ at hmerge ⊢
  simp only [hmerge.pageSize, Nat.add_sub_cancel, ← numNewPages_succ hone,
    ← extendIndices_succ hone]
  split_ifs with hfail
  · exact .failed hmerge
  · simpa only [hmerge.pageSize] using
      extends_extendIndices hk h hmerge (Nat.le_succ _) (Nat.le_of_not_lt hfail)

theorem alloc_spec (hone : a.pageSize = 1) : Extends a row (row.length + n) (a.alloc n) := by
  have hmerge := loses_merge_if a (a.needSort && a.freePages.length < n / a.pageSize)
  unfold alloc
  simp only
  generalize (if (a.needSort && decide (a.freePages.length < n / a.pageSize)) = true then
    a.mergeAndSortFree else a) = a₁ at hmerge ⊢
  split_ifs with hfail
  · exact .failed hmerge
  rw [hone, Nat.div_one, Nat.not_lt] at hfail
  have hslots : IsRow a.pageSize (pageSlots a.pageSize (a₁.freePages.take n))
      (a₁.freePages.take n) := isRow_pageSlots hk
  have hrow := IsRow.append hk h (hone ▸ one_dvd _) hslots
  have hlen : (row ++ pageSlots a.pageSize (a₁.freePages.take n)).length = row.length + n := by
    rw [length_append, length_pageSlots, length_take_of_le hfail, hone, mul_one]
  simpa only [hmerge.pageSize, hone, Nat.div_one] using
    extends_take hmerge hlen (hrow.exact hk) (hrow.pagesOf_eq hk)

theorem allocForExtend_spec (hle : row.length ≤ seqLen) :
    Extends a row seqLen (a.allocForExtend row.length seqLen (row.getLast?.getD (-1))) := by
  unfold allocForExtend
  split_ifs with hone
  · have hspec := alloc_spec hk h hone (n := seqLen - row.length)
    rwa [Nat.add_sub_cancel' hle] at hspec
  · exact allocExtend_spec hk h hle

theorem allocForDecode_spec : Extends a row (row.length + 1)
      (a.allocForDecode (row.length + 1) (row.getLast?.getD (-1))) := by
  unfold allocForDecode
  split_ifs with hone
  · exact alloc_spec hk h hone
  · exact allocDecode_spec hk h (by omega)

end Extends

theorem pages_clear : a.clear.pages = (arange 1 a.numPages : Multiset Int) := by
  simp [pages, clear]

theorem sane_clear : a.clear.Sane := ⟨rfl, fun _ => rfl⟩

end Paged

end SparkInfer.Alloc
