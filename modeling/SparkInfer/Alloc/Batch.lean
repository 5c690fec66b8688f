import SparkInfer.Alloc.Pages

/-!
# Allocation for a batch

`alloc`, `alloc_extend` and `alloc_decode` serve a whole batch from the free
pages, or fail and take nothing.  They fail only if the batch needs more pages
than `available_size` counts; giving pages back never makes them fail.
-/

namespace SparkInfer.Alloc.Paged

open List

/-- A row to be lengthened: `last_loc` is its last slot. -/
structure RowEnd where
  prefixLen : Nat
  seqLen : Nat
  lastLoc : Int

/-- The new slots of every row; each row takes its pages after those of the rows
before it. -/
def extendRows (pageSize : Nat) : List Int → List RowEnd → List (List Int)
  | _, [] => []
  | pages, r :: rows =>
    extendIndices pageSize r.prefixLen r.seqLen r.lastLoc pages ::
      extendRows pageSize (pages.drop (numNewPages pageSize r.prefixLen r.seqLen)) rows

def allocExtendBatch (a : Paged) (rows : List RowEnd) : Option (List (List Int)) × Paged :=
  let extendNumTokens := (rows.map fun r => r.seqLen - r.prefixLen).sum
  let a :=
    if a.needSort && a.freePages.length < extendNumTokens / a.pageSize + rows.length + 1 then
      a.mergeAndSortFree
    else a
  let n := (rows.map fun r => numNewPages a.pageSize r.prefixLen r.seqLen).sum
  if a.freePages.length < n then (none, a)
  else (some (extendRows a.pageSize a.freePages rows), { a with freePages := a.freePages.drop n })

/-- The new slot of every row of a decode step; `seqLen` counts it. -/
def decodeSlots (pageSize : Nat) : List Int → List (Nat × Int) → List Int
  | _, [] => []
  | pages, (seqLen, lastLoc) :: rows =>
    if numNewPages pageSize (seqLen - 1) seqLen = 0 then
      (lastLoc + 1) :: decodeSlots pageSize pages rows
    else (pages.getD 0 0 * pageSize) :: decodeSlots pageSize (pages.drop 1) rows

def allocDecodeBatch (a : Paged) (rows : List (Nat × Int)) : Option (List Int) × Paged :=
  let a := if a.needSort && a.freePages.length < rows.length then a.mergeAndSortFree else a
  let slots := decodeSlots a.pageSize a.freePages rows
  let n := rows.countP fun r => r.1 % a.pageSize = 1
  if a.freePages.length < n then (none, a)
  else (some slots, { a with freePages := a.freePages.drop n })

/-! ## What is available can be allocated -/

/-- Without sorting, pages are never parked in `release_pages`. -/
def Direct (a : Paged) : Prop := a.needSort = false → a.releasePages = []

section Serves

variable {a : Paged} {n k : Nat}

theorem le_freePages_merge (hd : a.Direct) (hk : n ≤ k)
    (hn : n ≤ a.freePages.length + a.releasePages.length) :
    n ≤ (if a.needSort && a.freePages.length < k then a.mergeAndSortFree else a).freePages.length := by
  split_ifs with hc
  · unfold mergeAndSortFree
    split
    · simpa using hn
    · omega
  cases hs : a.needSort with
  | false =>
    rwa [hd hs, length_nil] at hn
  | true =>
    simp [hs] at hc
    omega

theorem pageSize_merge {b : Bool} : (if b then a.mergeAndSortFree else a).pageSize = a.pageSize := by
  split
  · unfold mergeAndSortFree
    split <;> rfl
  · rfl

theorem direct_merge {b : Bool} (hd : a.Direct) : (if b then a.mergeAndSortFree else a).Direct := by
  split
  · unfold mergeAndSortFree
    split
    · exact fun _ => rfl
    · exact hd
  · exact hd

theorem pages_le_of_availableSize (hp : 0 < a.pageSize) (h : n * a.pageSize ≤ a.availableSize) :
    n ≤ a.freePages.length + a.releasePages.length :=
  le_of_mul_le_mul_right h hp

theorem alloc_serves (hd : a.Direct) (hp : 0 < a.pageSize) (h : n ≤ a.availableSize) :
    ∃ out a', a.alloc n = (some out, a') ∧ a'.Direct ∧ a'.pageSize = a.pageSize := by
  have hpages := pages_le_of_availableSize hp ((Nat.div_mul_le_self _ _).trans h)
  have hfree := le_freePages_merge hd le_rfl hpages
  simp only [alloc, pageSize_merge, if_neg (not_lt.mpr hfree)]
  exact ⟨_, _, rfl, direct_merge hd, rfl⟩

theorem allocDecodeBatch_serves {rows : List (Nat × Int)} (hd : a.Direct) (hp : 0 < a.pageSize)
    (h : (rows.countP fun r => r.1 % a.pageSize = 1) * a.pageSize ≤ a.availableSize) :
    ∃ out a', a.allocDecodeBatch rows = (some out, a') ∧ a'.Direct ∧ a'.pageSize = a.pageSize := by
  have hpages := pages_le_of_availableSize hp h
  have hfree := le_freePages_merge hd countP_le_length hpages
  simp only [allocDecodeBatch, pageSize_merge, if_neg (not_lt.mpr hfree)]
  exact ⟨_, _, rfl, direct_merge hd, rfl⟩

theorem numNewPages_le_div (hp : 0 < k) (p s : Nat) : numNewPages k p s ≤ (s - p) / k + 1 := by
  have hle : ceilDiv s k ≤ ceilDiv p k + ((s - p) / k + 1) := by
    rw [ceilDiv_le_iff hp, add_mul]
    have hpre : p ≤ ceilDiv p k * k := le_ceilDiv_mul hp
    have hrest : s - p < ((s - p) / k + 1) * k := Nat.lt_mul_of_div_lt (Nat.lt_succ_self _) hp
    omega
  exact Nat.sub_le_iff_le_add'.mpr hle

theorem sum_numNewPages_le (hp : 0 < k) (rows : List RowEnd) :
    (rows.map fun r => numNewPages k r.prefixLen r.seqLen).sum ≤
      (rows.map fun r => r.seqLen - r.prefixLen).sum / k + rows.length := by
  induction rows with
  | nil => simp
  | cons r rows ih =>
    have hone := numNewPages_le_div hp r.prefixLen r.seqLen
    have hdiv : (r.seqLen - r.prefixLen) / k + (rows.map fun r => r.seqLen - r.prefixLen).sum / k ≤
        (r.seqLen - r.prefixLen + (rows.map fun r => r.seqLen - r.prefixLen).sum) / k :=
      Nat.div_add_div_le_add_div
    simp only [map_cons, sum_cons, length_cons]
    omega

theorem allocExtendBatch_serves {rows : List RowEnd} (hd : a.Direct) (hp : 0 < a.pageSize)
    (h : (rows.map fun r => numNewPages a.pageSize r.prefixLen r.seqLen).sum * a.pageSize ≤
      a.availableSize) :
    ∃ out a', a.allocExtendBatch rows = (some out, a') ∧ a'.Direct ∧ a'.pageSize = a.pageSize := by
  have hpages := pages_le_of_availableSize hp h
  have hmerge := (sum_numNewPages_le hp rows).trans (Nat.le_succ _)
  have hfree := le_freePages_merge hd hmerge hpages
  simp only [allocExtendBatch, pageSize_merge, if_neg (not_lt.mpr hfree)]
  exact ⟨_, _, rfl, direct_merge hd, rfl⟩

end Serves

/-! ## Giving pages back -/

/-- `a'` is `a` with pages given back or put off for later. -/
structure Grows (a a' : Paged) : Prop where
  pageSize : a'.pageSize = a.pageSize
  direct : a.Direct → a'.Direct
  available : a.availableSize ≤ a'.availableSize

section Grows

variable {a a' a'' : Paged}

theorem Grows.refl (a : Paged) : Grows a a := ⟨rfl, id, le_rfl⟩

theorem Grows.trans (h : Grows a a') (h' : Grows a' a'') : Grows a a'' :=
  ⟨h'.pageSize.trans h.pageSize, h'.direct ∘ h.direct, h.available.trans h'.available⟩

theorem grows_releasePageIds (a : Paged) (ids : List Int) : Grows a (a.releasePageIds ids) := by
  unfold releasePageIds
  split_ifs with hs
  · refine ⟨rfl, fun _ hs' => ?_, ?_⟩
    · rw [hs] at hs'
      cases hs'
    apply Nat.mul_le_mul_right
    change _ ≤ a.freePages.length + (ids ++ a.releasePages).length
    rw [length_append]
    omega
  · refine ⟨rfl, id, ?_⟩
    apply Nat.mul_le_mul_right
    change _ ≤ (ids ++ a.freePages).length + a.releasePages.length
    rw [length_append]
    omega

theorem grows_free (a : Paged) (xs : List Int) : Grows a (a.free xs) := by
  unfold free
  split
  · exact .refl a
  split
  · exact grows_releasePageIds a _
  · exact ⟨rfl, id, le_rfl⟩

theorem grows_freeSegment (a : Paged) (xs : List Int) (startPos : Nat) :
    Grows a (a.freeSegment xs startPos) := by
  unfold freeSegment
  split
  · exact .refl a
  split
  · exact grows_releasePageIds a _
  · exact ⟨rfl, id, le_rfl⟩

theorem grows_freeSegmentsFrom (prevEnd : Option Nat) (segments : List (List Int × Nat)) (a : Paged) :
    Grows a (a.freeSegmentsFrom prevEnd segments) := by
  induction segments generalizing prevEnd a with
  | nil => exact .refl a
  | cons s segments ih =>
    simp only [freeSegmentsFrom]
    split
    · exact ih prevEnd a
    refine Grows.trans ?_ (ih _ _)
    split
    · exact grows_freeSegment a _ _
    · split <;> exact grows_freeSegment a _ _

theorem grows_freeSegments (a : Paged) (segments : List (List Int × Nat)) :
    Grows a (a.freeSegments segments) :=
  grows_freeSegmentsFrom none segments a

end Grows

end SparkInfer.Alloc.Paged
