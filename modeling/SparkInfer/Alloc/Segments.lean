import SparkInfer.Alloc.Capacity
import Mathlib.Data.Finset.Dedup

/-!
# Freeing segments of a row

`free_segments` gives back the pages that ascending segments of one row touch.  A segment
whose first page was already given back by the one before is trimmed to its next page, and
no deduplication is needed.  Pages are counted here by their place in the row.
-/

namespace SparkInfer.Alloc.Paged

open Lib.CommonPrefix List Multiset Nat Option

variable {xs : List Int} {s : Nat} {a : Paged} {e : Nat}

section Places

variable {k : Nat} {row ps : List Int} (hk : 0 < k)

theorem length_slice (he : e ≤ xs.length) : (slice xs s e).length = e - s := by
  rw [slice, length_drop, length_take, min_eq_left he]

theorem slice_eq_map_range {lo hi : Nat} (hhi : hi ≤ xs.length) :
    slice xs lo hi = (range' lo (hi - lo)).map fun i => xs.getD i 0 := by
  have hlen := length_slice (s := lo) hhi
  apply ext_getElem
  · rw [hlen, length_map, length_range']
  · intro i hi' _
    have hget : lo + i < xs.length := by omega
    simp [slice, hget]

include hk

theorem IsRow.pagesOf_slice (h : IsRow k row ps) (c e : Nat) :
    pagesOf k (slice row (c * k) e) = slice ps c (ceilDiv e k) :=
  ((h.take hk e).drop hk c).pagesOf_eq hk

theorem IsRow.div_getElem (h : IsRow k row ps) {j : Nat} (hj : j < row.length) :
    row[j] / (k : Int) = ps.getD (j / k) 0 := by
  have hlen : row.length ≤ ps.length * k := h.len ▸ le_ceilDiv_mul hk
  have hslot : row[j]? = some (ps.getD (j / k) 0 * k + (j % k : Nat)) := by
    rw [h.eq, getElem?_take_of_lt hj]
    exact getElem?_pageSlots (hj.trans_le hlen)
  rw [getElem?_eq_getElem hj] at hslot
  rw [some.inj hslot, div_slot (mod_lt j hk)]

theorem IsRow.pieces_slice (h : IsRow k row ps) (hse : s < e) (he : e ≤ row.length) :
    (pieces k (slice row s e) s).flatMap (fun p => p.map (· / (k : Int))) =
      slice ps (s / k) (ceilDiv e k) := by
  have hps : ceilDiv e k ≤ ps.length := h.len ▸ ceilDiv_mono he
  have hmod := div_add_mod' s k
  by_cases hstart : s % k = 0
  · have hs : s = s / k * k := by omega
    rw [pieces, if_pos hstart, flatMap_singleton]
    conv_lhs => rw [hs]
    exact h.pagesOf_slice hk (s / k) e
  · -- the first slot stands for the rest of its page, the stride starts at the next one
    have hnext : (slice row s e).drop (k - s % k) = slice row ((s / k + 1) * k) e := by
      have hlt := mod_lt s hk
      rw [slice, drop_drop, succ_mul]
      congr 1
      omega
    have hget : s < (row.take e).length := by
      rw [length_take]
      omega
    have hfirst : (slice row s e).take 1 = [row[s]] := by
      rw [slice, drop_eq_getElem_cons hget]
      simp
    have hplace : s / k < ceilDiv e k := div_lt_ceilDiv hk hse
    rw [pieces, if_neg hstart, hfirst, hnext, flatMap_cons, flatMap_singleton,
      List.map_singleton, h.div_getElem hk]
    change _ :: pagesOf k _ = _
    rw [h.pagesOf_slice hk (s / k + 1) e, slice_eq_map_range hps, slice_eq_map_range hps,
      show ceilDiv e k - s / k = ceilDiv e k - (s / k + 1) + 1 by omega, range'_succ,
      List.map_cons]

end Places

/-! ## Segments -/

/-- The segments are slices of the row that ascend from position `e` on; an empty one may
stand anywhere. -/
inductive Ascending (row : List Int) : Nat → List (List Int × Nat) → Prop
  | nil (e : Nat) : Ascending row e []
  | empty {e : Nat} {segments : List (List Int × Nat)} (s : Nat)
      (rest : Ascending row e segments) : Ascending row e (([], s) :: segments)
  | cons {e s e' : Nat} {segments : List (List Int × Nat)} (hes : e ≤ s) (hse : s < e')
      (he : e' ≤ row.length) (rest : Ascending row e' segments) :
      Ascending row e ((slice row s e', s) :: segments)

def spans (k : Nat) : List (List Int × Nat) → List Nat
  | [] => []
  | (xs, s) :: segments =>
    if xs = [] then spans k segments
    else range' (s / k) (ceilDiv (s + xs.length) k - s / k) ++ spans k segments

/-- The places at `c` or after it, each once. -/
def fresh (k : Nat) : Nat → List (List Int × Nat) → List Nat
  | _, [] => []
  | c, (xs, s) :: segments =>
    if xs = [] then fresh k c segments
    else
      let hi := ceilDiv (s + xs.length) k
      range' (max (s / k) c) (hi - max (s / k) c) ++ fresh k hi segments

section Segments

variable {k : Nat} {row ps : List Int} {e c : Nat} {segments : List (List Int × Nat)} (hk : 0 < k)

theorem slice_ne_nil (hse : s < e) (he : e ≤ xs.length) : slice xs s e ≠ [] := by
  apply ne_nil_of_length_pos
  rw [length_slice he]
  omega

theorem spans_cons (hse : s < e) (he : e ≤ row.length) : spans k ((slice row s e, s) :: segments) =
      range' (s / k) (ceilDiv e k - s / k) ++ spans k segments := by
  rw [spans, if_neg (slice_ne_nil hse he), length_slice he, Nat.add_sub_cancel' hse.le]

theorem fresh_cons (hse : s < e) (he : e ≤ row.length) :
    fresh k c ((slice row s e, s) :: segments) =
      range' (max (s / k) c) (ceilDiv e k - max (s / k) c) ++ fresh k (ceilDiv e k) segments := by
  rw [fresh, if_neg (slice_ne_nil hse he), length_slice he, Nat.add_sub_cancel' hse.le]

variable (h : Ascending row e segments)
include h

theorem bounds_of_mem_spans {i : Nat} (hi : i ∈ spans k segments) :
    e / k ≤ i ∧ i < ceilDiv row.length k := by
  induction h with
  | nil e => cases hi
  | empty s _ ih => exact ih (by simpa [spans] using hi)
  | @cons e s e' segments hes hse he _ ih =>
    rw [spans_cons hse he, mem_append, mem_range'_1] at hi
    have hle : e / k ≤ s / k := Nat.div_le_div_right hes
    have hlen : ceilDiv e' k ≤ ceilDiv row.length k := ceilDiv_mono he
    rcases hi with hi | hi
    · omega
    · exact ⟨(Nat.div_le_div_right (by omega)).trans (ih hi).1, (ih hi).2⟩

include hk

/-- What was given back up to `e` is skipped, nothing else is. -/
theorem mem_fresh {i : Nat} :
    i ∈ fresh k (ceilDiv e k) segments ↔ i ∈ spans k segments ∧ ceilDiv e k ≤ i := by
  induction h with
  | nil e => simp [fresh, spans]
  | empty s _ ih => simpa [fresh, spans] using ih
  | @cons e s e' segments hes hse he hrest ih =>
    rw [fresh_cons hse he, spans_cons hse he, mem_append, mem_append, ih,
      mem_range'_1, mem_range'_1]
    have hmono : ceilDiv e k ≤ ceilDiv e' k := ceilDiv_mono (by omega)
    have hlt : s / k < ceilDiv e' k := div_lt_ceilDiv hk hse
    constructor
    · rintro (hi | ⟨hi, hc⟩)
      · omega
      · exact ⟨.inr hi, hmono.trans hc⟩
    rintro ⟨hi | hi, hc⟩
    · omega
    rcases lt_or_ge i (ceilDiv e' k) with hbefore | hafter
    · -- the page shared with the segment before
      have hlast : e' / k ≤ i := (bounds_of_mem_spans hrest hi).1
      have hceil : ceilDiv e' k = (e' - 1) / k + 1 := ceilDiv_eq_div_add_one hk (by omega)
      have hdiv : (e' - 1) / k ≤ e' / k := Nat.div_le_div_right (by omega)
      omega
    · exact .inr ⟨hi, hafter⟩

theorem nodup_fresh : (fresh k (ceilDiv e k) segments).Nodup := by
  induction h with
  | nil e => exact nodup_nil
  | empty s _ ih => simpa [fresh] using ih
  | cons hes hse he hrest ih =>
    rw [fresh_cons hse he, nodup_append]
    refine ⟨nodup_range', ih, fun i hi j hj hij => ?_⟩
    rw [mem_range'_1] at hi
    have hge := ((mem_fresh hk hrest).mp hj).2
    omega

omit h

theorem IsRow.mem_touched (hrow : IsRow k row ps) (h : Ascending row e segments) {p : Int} :
    p ∈ (segments.flatMap Prod.fst).map (· / (k : Int)) ↔ ∃ i ∈ spans k segments, ps.getD i 0 = p := by
  induction h with
  | nil e => simp [spans]
  | empty s _ ih => simpa [spans] using ih
  | @cons e s e' segments hes hse he hrest ih =>
    have hslice : p ∈ (slice row s e').map (· / (k : Int)) ↔
        ∃ i ∈ List.range' (s / k) (ceilDiv e' k - s / k), ps.getD i 0 = p := by
      rw [slice_eq_map_range he, List.map_map, List.mem_map]
      simp only [mem_range'_1, Function.comp_apply]
      constructor
      · rintro ⟨j, hj, rfl⟩
        have hget : row.getD j 0 = row[j] := by simp [show j < row.length by omega]
        have hlow : s / k ≤ j / k := Nat.div_le_div_right hj.1
        have hhigh : j / k < ceilDiv e' k := div_lt_ceilDiv hk (by omega)
        exact ⟨j / k, by omega, by rw [hget, hrow.div_getElem hk]⟩
      rintro ⟨i, hi, rfl⟩
      -- the first slot of the segment on that page
      have hlt : i * k < e' := by
        by_contra hle
        have hceil : ceilDiv e' k ≤ i := (ceilDiv_le_iff hk).mpr (by omega)
        omega
      have hplace : max s (i * k) / k = i := by
        rcases Nat.le_total s (i * k) with hle | hle
        · rw [Nat.max_eq_right hle, Nat.mul_div_cancel _ hk]
        · rw [Nat.max_eq_left hle]
          exact Nat.le_antisymm hi.1 ((Nat.le_div_iff_mul_le hk).mpr hle)
      have hj : max s (i * k) < row.length := by omega
      have hget : row.getD (max s (i * k)) 0 = row[max s (i * k)] := by simp [hj]
      refine ⟨max s (i * k), by omega, ?_⟩
      rw [hget, hrow.div_getElem hk, hplace]
    rw [flatMap_cons, map_append, mem_append, hslice, ih, spans_cons hse he]
    simp only [mem_append, or_and_right, exists_or]

end Segments

section Gains

variable {row ps : List Int} {e : Nat} {segments : List (List Int × Nat)}

/-- One round of the loop of `free_segments`, for a segment that is not empty. -/
def stepSegment (a : Paged) (prevEnd : Option Nat) (xs : List Int) (s : Nat) : Paged :=
  let boundary := (s / a.pageSize + 1) * a.pageSize
  if prevEnd.any fun e => s / a.pageSize == (e - 1) / a.pageSize then
    a.freeSegment (xs.drop (boundary - s)) boundary
  else a.freeSegment xs s

theorem freeSegmentsFrom_cons (prevEnd : Option Nat) (hxs : xs ≠ []) :
    a.freeSegmentsFrom prevEnd ((xs, s) :: segments) =
      (a.stepSegment prevEnd xs s).freeSegmentsFrom (some (s + xs.length)) segments := by
  cases prevEnd with
  | none | some e => simp [freeSegmentsFrom, stepSegment, hxs]

theorem gains_stepSegment (hk : 0 < a.pageSize) (hrow : IsRow a.pageSize row ps)
    {prevEnd : Option Nat} {e' : Nat}
    (hprev : prevEnd = none ∧ e = 0 ∨ prevEnd = some e ∧ 0 < e) (hes : e ≤ s) (hse : s < e')
    (he : e' ≤ row.length) : Gains a (a.stepSegment prevEnd (slice row s e') s)
      (slice ps (max (s / a.pageSize) (ceilDiv e a.pageSize)) (ceilDiv e' a.pageSize) : List Int) := by
  have hwhole : Gains a (a.freeSegment (slice row s e') s)
      (slice ps (s / a.pageSize) (ceilDiv e' a.pageSize)) := by
    have hgains := gains_freeSegment_pieces a (slice_ne_nil hse he) s
    rwa [hrow.pieces_slice hk hse he] at hgains
  unfold stepSegment
  rcases hprev with ⟨rfl, rfl⟩ | ⟨rfl, hpos⟩
  · rwa [ceilDiv_zero, max_zero]
  have hceil := ceilDiv_eq_div_add_one hk hpos
  have hle : (e - 1) / a.pageSize ≤ s / a.pageSize := Nat.div_le_div_right (by omega)
  by_cases hshare : s / a.pageSize = (e - 1) / a.pageSize
  · -- trimmed to the next page
    have hlt : s < (s / a.pageSize + 1) * a.pageSize := by
      rw [mul_comm]
      exact lt_mul_div_succ s hk
    have hdrop : (slice row s e').drop ((s / a.pageSize + 1) * a.pageSize - s) =
        slice row ((s / a.pageSize + 1) * a.pageSize) e' := by
      rw [slice, slice, drop_drop, Nat.add_sub_cancel' hlt.le]
    have hgains := gains_freeSegment a (slice row ((s / a.pageSize + 1) * a.pageSize) e')
      (dvd_mul_left a.pageSize (s / a.pageSize + 1))
    rw [hrow.pagesOf_slice hk] at hgains
    simp only [any_some, hshare, beq_self_eq_true]
    rw [hshare] at hdrop hgains
    rwa [hdrop, hceil, Nat.max_eq_right (by omega)]
  · have hbeq := beq_eq_false_iff_ne.mpr hshare
    simp only [any_some, hbeq]
    rwa [Nat.max_eq_left (by omega)]

theorem gains_freeSegmentsFrom (hk : 0 < a.pageSize) (hrow : IsRow a.pageSize row ps)
    (h : Ascending row e segments) {prevEnd : Option Nat}
    (hprev : prevEnd = none ∧ e = 0 ∨ prevEnd = some e ∧ 0 < e) :
    Gains a (a.freeSegmentsFrom prevEnd segments)
      ((fresh a.pageSize (ceilDiv e a.pageSize) segments).map fun i => ps.getD i 0 : List Int) := by
  induction h generalizing a prevEnd with
  | nil e => exact .refl a
  | empty s _ ih => simpa [freeSegmentsFrom, fresh] using ih hk hrow hprev
  | @cons e s e' segments hes hse he hrest ih =>
    have hps : ceilDiv e' a.pageSize ≤ ps.length := hrow.len ▸ ceilDiv_mono he
    have hfirst := gains_stepSegment hk hrow hprev hes hse he
    have hsecond := @ih _ (hfirst.pageSize ▸ hk) (hfirst.pageSize ▸ hrow) (some e')
      (.inr ⟨rfl, by omega⟩)
    rw [freeSegmentsFrom_cons prevEnd (slice_ne_nil hse he), length_slice he,
      Nat.add_sub_cancel' hse.le, fresh_cons hse he, map_append, ← slice_eq_map_range hps]
    rw [hfirst.pageSize] at hsecond
    exact hfirst.trans hsecond

theorem gains_freeSegments_ascending {a : Paged} (hk : 0 < a.pageSize)
    (hrow : IsRow a.pageSize row ps) (h : Ascending row 0 segments) :
    Gains a (a.freeSegments segments)
      ((fresh a.pageSize 0 segments).map fun i => ps.getD i 0 : List Int) := by
  have hgains := gains_freeSegmentsFrom hk hrow h (.inl ⟨rfl, rfl⟩)
  rwa [ceilDiv_zero] at hgains

@[simp] theorem releasePageIds_freeGroup (ids : List Int) :
    (a.releasePageIds ids).freeGroup = a.freeGroup := by
  unfold releasePageIds
  split <;> rfl

@[simp] theorem releasePageIds_freePageRepsGroup (ids : List Int) :
    (a.releasePageIds ids).freePageRepsGroup = a.freePageRepsGroup := by
  unfold releasePageIds
  split <;> rfl

theorem freeSegment_closed (hclosed : a.freeGroup = none) : (a.freeSegment xs s).freeGroup = none ∧
      (a.freeSegment xs s).freePageRepsGroup = a.freePageRepsGroup := by
  unfold freeSegment
  split
  · exact ⟨hclosed, rfl⟩
  · simp [hclosed]

theorem freeSegmentsFrom_closed (hclosed : a.freeGroup = none) (prevEnd : Option Nat) :
    (a.freeSegmentsFrom prevEnd segments).freePageRepsGroup = a.freePageRepsGroup := by
  induction segments generalizing a prevEnd with
  | nil => rfl
  | cons segment segments ih =>
    obtain ⟨xs, s⟩ := segment
    by_cases hxs : xs = []
    · simpa [freeSegmentsFrom, hxs] using ih hclosed prevEnd
    have hround : (a.stepSegment prevEnd xs s).freeGroup = none ∧
        (a.stepSegment prevEnd xs s).freePageRepsGroup = a.freePageRepsGroup := by
      unfold stepSegment
      split <;> exact freeSegment_closed hclosed
    rw [freeSegmentsFrom_cons prevEnd hxs, ih hround.1, hround.2]

def touched (k : Nat) (segments : List (List Int × Nat)) : Finset Int :=
  ((segments.flatMap Prod.fst).map (· / (k : Int))).toFinset

theorem IsRow.map_fresh {k : Nat} (hk : 0 < k) (hrow : IsRow k row ps) (hps : ps.Nodup)
    (h : Ascending row 0 segments) :
    ((fresh k 0 segments).map fun i => ps.getD i 0 : Multiset Int) = (touched k segments).val := by
  have hzero : ceilDiv 0 k = 0 := ceilDiv_zero
  have hmem : ∀ i, i ∈ fresh k 0 segments ↔ i ∈ spans k segments := by
    intro i
    have hiff := @mem_fresh k row 0 segments hk h i
    rwa [hzero, and_iff_left (Nat.zero_le i)] at hiff
  have hnodup : ((fresh k 0 segments).map fun i => ps.getD i 0).Nodup := by
    refine List.Nodup.map_on ?_ (hzero ▸ nodup_fresh hk h)
    intro i hi j hj hij
    have hi' : i < ps.length := hrow.len ▸ (bounds_of_mem_spans h ((hmem i).mp hi)).2
    have hj' : j < ps.length := hrow.len ▸ (bounds_of_mem_spans h ((hmem j).mp hj)).2
    simp only [getD_eq_getElem?_getD, getElem?_eq_getElem hi', getElem?_eq_getElem hj'] at hij
    exact (hps.getElem_inj_iff).mp hij
  refine (Multiset.Nodup.ext (coe_nodup.mpr hnodup) (touched k segments).nodup).mpr ?_
  intro p
  rw [mem_coe, Finset.mem_val, touched, List.mem_toFinset, hrow.mem_touched hk h, List.mem_map]
  simp only [hmem]

theorem pages_eq : a.pages = a.atHand +
    ((a.freePageRepsGroup.flatten.map (· / (a.pageSize : Int)) : List Int) : Multiset Int) := rfl

theorem atHand_releasePageIds (ids : List Int) :
    (a.releasePageIds ids).atHand = a.atHand + (ids : Multiset Int) := by
  have hsize : (a.releasePageIds ids).pageSize = a.pageSize := (gains_releasePageIds a ids).pageSize
  have hpages := (gains_releasePageIds a ids).pages
  rw [pages_eq, pages_eq, releasePageIds_freePageRepsGroup, hsize, add_right_comm] at hpages
  exact add_right_cancel hpages

theorem freeGroup_freeGroupEnd (hpending : a.freeGroup.getD [] = []) :
    a.freeGroupEnd.freeGroup = none := by
  simp only [freeGroupEnd, hpending, if_true]
  split
  · rfl
  · simp

end Gains

/-- `free_segments` gives back every page that the segments of a row touch, and each once;
`free` of all their slots gives back the same pages, and so does a free group. -/
theorem free_segments_touched (a : Paged) (hk : 0 < a.pageSize) (hclosed : a.freeGroup = none)
    {row ps : List Int} (hrow : IsRow a.pageSize row ps) (hps : ps.Nodup)
    {segments : List (List Int × Nat)} (h : Ascending row 0 segments) :
    (a.freeSegments segments).atHand = a.atHand + (touched a.pageSize segments).val ∧
    (a.free (segments.flatMap Prod.fst)).atHand = a.atHand + (touched a.pageSize segments).val ∧
    (a.freeGroupBegin.freeSegments segments).freeGroupEnd.atHand =
      a.atHand + (touched a.pageSize segments).val := by
  refine ⟨?_, ?_, ?_⟩
  · have hgains := gains_freeSegments_ascending hk hrow h
    have hpages := hgains.pages
    rw [hrow.map_fresh hk hps h, pages_eq, pages_eq, hgains.pageSize, freeSegments,
      freeSegmentsFrom_closed hclosed, add_right_comm] at hpages
    exact add_right_cancel hpages
  · unfold free
    split_ifs with hnone
    · simp [touched, hnone]
    · simp only [hclosed, atHand_releasePageIds]
      rw [unique, coe_eq_coe.mpr (mergeSort_perm _ _)]
      rfl
  · have hgains := @gains_freeSegments_ascending row ps segments a.freeGroupBegin hk hrow h
    have hsane := hgains.sane ⟨rfl, by rintro ⟨⟩⟩
    have hend := gains_freeGroupEnd hsane
    have hreps := (hend.sane hsane).closed (freeGroup_freeGroupEnd hsane.pending)
    have hpages := hend.pages
    have hbegin : a.freeGroupBegin.pages = a.atHand := by simp [pages_eq, freeGroupBegin, atHand]
    have hsize : a.freeGroupBegin.pageSize = a.pageSize := rfl
    rw [hgains.pages, hsize, hrow.map_fresh hk hps h, pages_eq, hreps, hbegin] at hpages
    simpa using hpages

def cutRow : List Int := [12, 13, 14, 15, 4, 5, 6, 7, 8, 9]

/-- Segments that meet inside a page, leave a hole, or are empty. -/
def brokenSegments : List (List Int × Nat) := [([12, 13], 0), ([], 5), ([14], 2), ([5, 6], 5), ([7, 8], 7)]

theorem free_segments_touched_cutRow : ((new 16 4 false).freeSegments brokenSegments).atHand =
      (new 16 4 false).atHand + (touched 4 brokenSegments).val := by
  have hrow : IsRow 4 cutRow [3, 1, 2] := ⟨by decide, by decide⟩
  have hlast : Ascending cutRow 7 [([7, 8], 7)] :=
    @Ascending.cons cutRow 7 7 9 [] (by decide) (by decide) (by decide) (.nil 9)
  have hhole : Ascending cutRow 3 [([5, 6], 5), ([7, 8], 7)] :=
    @Ascending.cons cutRow 3 5 7 _ (by decide) (by decide) (by decide) hlast
  have hmeet : Ascending cutRow 2 [([14], 2), ([5, 6], 5), ([7, 8], 7)] :=
    @Ascending.cons cutRow 2 2 3 _ (by decide) (by decide) (by decide) hhole
  have hall : Ascending cutRow 0 brokenSegments :=
    @Ascending.cons cutRow 0 0 2 _ (by decide) (by decide) (by decide) (.empty 5 hmeet)
  exact (free_segments_touched (new 16 4 false) (by decide) rfl hrow (by decide) hall).1

end SparkInfer.Alloc.Paged
