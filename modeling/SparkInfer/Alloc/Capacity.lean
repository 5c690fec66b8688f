import SparkInfer.Alloc.Batch

/-!
# When the paged allocator fails

In every state the allocator gets into, `alloc_extend` and `alloc_decode` fail exactly when
the batch needs more pages than are free or released, whichever of the two lists holds
them, and a failure loses no page.  `alloc_decode` counts a new page for the rows with
`seq_len % page_size == 1`; at page size one no row is counted although each opens a page.
-/

namespace SparkInfer.Alloc.Paged

variable {β : Type} {n k : Nat} {out : β}

inductive Op
  | alloc (needSize : Nat)
  | allocExtend (rows : List RowEnd)
  | allocDecode (rows : List (Nat × Int))
  | free (freeIndex : List Int)
  | freeSegment (freeIndex : List Int) (startPos : Nat)
  | freeSegments (segments : List (List Int × Nat))
  | freeGroupBegin
  | freeGroupEnd
  | mergeAndSortFree
  | clear
  | resize (numPages : Nat)

def after (a : Paged) : Op → Paged
  | .alloc needSize => (a.alloc needSize).2
  | .allocExtend rows => (a.allocExtendBatch rows).2
  | .allocDecode rows => (a.allocDecodeBatch rows).2
  | .free freeIndex => a.free freeIndex
  | .freeSegment freeIndex startPos => a.freeSegment freeIndex startPos
  | .freeSegments segments => a.freeSegments segments
  | .freeGroupBegin => a.freeGroupBegin
  | .freeGroupEnd => a.freeGroupEnd
  | .mergeAndSortFree => a.mergeAndSortFree
  | .clear => a.clear
  | .resize numPages => { a with numPages := numPages }.clear

def Reachable (a : Paged) : Prop :=
  ∃ size pageSize needSort ops, a = List.foldl after (new size pageSize needSort) ops

def atHand (a : Paged) : Multiset Int := (a.freePages : Multiset Int) + (a.releasePages : Multiset Int)

section

variable {a : Paged}

/-- The end of every allocation: fail, or take the first `n` free pages. -/
def takePages {β : Type} (a : Paged) (n : Nat) (out : β) : Option β × Paged :=
  if a.freePages.length < n then (none, a) else (some out, { a with freePages := a.freePages.drop n })

theorem takePages_none_iff : (a.takePages n out).1 = none ↔ a.freePages.length < n := by
  unfold takePages
  split_ifs with henough
  · simpa
  · exact ⟨nofun, fun hshort => absurd hshort henough⟩

theorem takePages_pageSize (n : Nat) (out : β) : (a.takePages n out).2.pageSize = a.pageSize := by
  unfold takePages
  split <;> rfl

theorem direct_takePages (hd : a.Direct) (n : Nat) (out : β) : (a.takePages n out).2.Direct := by
  unfold takePages
  split <;> exact hd

theorem Direct.after (hd : a.Direct) (op : Op) : (a.after op).Direct := by
  cases op with
  | alloc needSize | allocExtend rows | allocDecode rows =>
    exact direct_takePages (direct_merge hd) _ _
  | free freeIndex => exact (grows_free a freeIndex).direct hd
  | freeSegment freeIndex startPos => exact (grows_freeSegment a freeIndex startPos).direct hd
  | freeSegments segments => exact (grows_freeSegments a segments).direct hd
  | freeGroupBegin => exact hd
  | freeGroupEnd =>
    have hpending : (if a.freeGroup.getD [] = [] then { a with freeGroup := none }
        else { a with freeGroup := none }.free (a.freeGroup.getD []).flatten).Direct := by
      split
      · exact hd
      · exact (grows_free _ _).direct hd
    simp only [Paged.after, freeGroupEnd]
    generalize (if a.freeGroup.getD [] = [] then { a with freeGroup := none }
        else { a with freeGroup := none }.free (a.freeGroup.getD []).flatten) = a₁
      at hpending ⊢
    split
    · exact hpending
    · exact (grows_releasePageIds _ _).direct hpending
  | mergeAndSortFree => exact @direct_merge a true hd
  | clear | resize numPages => exact fun _ => rfl

theorem Reachable.direct (h : a.Reachable) : a.Direct := by
  obtain ⟨size, pageSize, needSort, ops, rfl⟩ := h
  have hnew : (new size pageSize needSort).Direct := fun _ => rfl
  revert hnew
  generalize new size pageSize needSort = a
  intro hd
  induction ops generalizing a with
  | nil => exact hd
  | cons op ops ih => exact ih _ (hd.after op)

/-! ## Taking pages -/

theorem atHand_mergeAndSortFree : a.mergeAndSortFree.atHand = a.atHand := by
  unfold mergeAndSortFree
  split
  · have hperm : ((a.freePages ++ a.releasePages).mergeSort : Multiset Int) = a.atHand := by
      exact Multiset.coe_eq_coe.mpr (List.mergeSort_perm _ _)
    rw [← hperm]
    exact add_zero _
  · rfl

theorem atHand_merge_if (b : Bool) : (if b then a.mergeAndSortFree else a).atHand = a.atHand := by
  split
  · exact atHand_mergeAndSortFree
  · rfl

theorem atHand_of_takePages_none {b : Bool}
    (h : (takePages (if b then a.mergeAndSortFree else a) n out).1 = none) :
    (takePages (if b then a.mergeAndSortFree else a) n out).2.atHand = a.atHand := by
  rw [takePages_none_iff] at h
  rw [takePages, if_pos h]
  exact atHand_merge_if b

theorem length_freePages_le (a : Paged) : a.freePages.length ≤ a.atHand.card := by
  simp [atHand]

theorem short_merge_iff (hd : a.Direct) (hk : n ≤ k) :
    (if a.needSort && a.freePages.length < k then a.mergeAndSortFree else a).freePages.length < n ↔
      a.freePages.length + a.releasePages.length < n := by
  constructor
  · intro hshort
    by_contra henough
    exact absurd (le_freePages_merge hd hk (Nat.le_of_not_lt henough)) (Nat.not_le_of_lt hshort)
  have hle := length_freePages_le
    (if a.needSort && a.freePages.length < k then a.mergeAndSortFree else a)
  rw [atHand_merge_if] at hle
  have hcard : a.atHand.card = a.freePages.length + a.releasePages.length := by simp [atHand]
  omega

def decodePages (pageSize : Nat) (rows : List (Nat × Int)) : Nat :=
  (rows.map fun r => numNewPages pageSize (r.1 - 1) r.1).sum

theorem decodePages_eq (hk : 1 < k) (rows : List (Nat × Int)) :
    decodePages k rows = rows.countP fun r => r.1 % k = 1 := by
  induction rows with
  | nil => rfl
  | cons r rows ih =>
    have hone : numNewPages k (r.1 - 1) r.1 = if r.1 % k = 1 then 1 else 0 := by
      cases hr : r.1 with
      | zero => simp [numNewPages]
      | succ n => exact numNewPages_succ hk
    have hcons : decodePages k (r :: rows) = numNewPages k (r.1 - 1) r.1 + decodePages k rows := by
      simp [decodePages]
    rw [hcons, ih, hone, List.countP_cons, Nat.add_comm]
    simp

theorem allocExtendBatch_none_iff (hd : a.Direct) (hp : 0 < a.pageSize) (rows : List RowEnd) :
    (a.allocExtendBatch rows).1 = none ↔ a.freePages.length + a.releasePages.length <
        (rows.map fun r => numNewPages a.pageSize r.prefixLen r.seqLen).sum := by
  have hbound := (sum_numNewPages_le hp rows).trans (Nat.le_succ _)
  rw [← short_merge_iff hd hbound]
  refine takePages_none_iff.trans ?_
  rw [pageSize_merge]

theorem allocDecodeBatch_none_iff (hd : a.Direct) (hp : 1 < a.pageSize) (rows : List (Nat × Int)) :
    (a.allocDecodeBatch rows).1 = none ↔
      a.freePages.length + a.releasePages.length < decodePages a.pageSize rows := by
  have hbound : (rows.countP fun r => r.1 % a.pageSize = 1) ≤ rows.length := List.countP_le_length
  rw [decodePages_eq hp, ← short_merge_iff hd hbound]
  refine takePages_none_iff.trans ?_
  rw [pageSize_merge]

end

/-- In every reachable state an allocation for a batch fails exactly when the new pages of
the batch are more than the free and the released ones, and then no page is lost. -/
theorem alloc_fails_iff_short (a : Paged) (h : a.Reachable) (hp : 0 < a.pageSize) :
    (∀ rows, ((a.allocExtendBatch rows).1 = none ↔ a.freePages.length + a.releasePages.length <
          (rows.map fun r => numNewPages a.pageSize r.prefixLen r.seqLen).sum) ∧
      ((a.allocExtendBatch rows).1 = none → (a.allocExtendBatch rows).2.atHand = a.atHand)) ∧
    ∀ rows, (1 < a.pageSize → ((a.allocDecodeBatch rows).1 = none ↔
        a.freePages.length + a.releasePages.length < decodePages a.pageSize rows)) ∧
      ((a.allocDecodeBatch rows).1 = none → (a.allocDecodeBatch rows).2.atHand = a.atHand) :=
  ⟨fun rows => ⟨allocExtendBatch_none_iff h.direct hp rows, atHand_of_takePages_none⟩,
    fun rows => ⟨fun hp => allocDecodeBatch_none_iff h.direct hp rows, atHand_of_takePages_none⟩⟩

/-- Two pages of two slots, one of them out and the other back in `release_pages`. -/
def parked : Paged := ((new 4 2 true).after (.alloc 4)).after (.freeSegment [2, 3] 0)

theorem alloc_fails_iff_short_parked : parked.freePages = [] ∧ parked.releasePages = [1] ∧
      (parked.allocExtendBatch [⟨0, 2, -1⟩]).1 ≠ none ∧
      (parked.allocExtendBatch [⟨0, 3, -1⟩]).1 = none ∧
      (parked.allocExtendBatch [⟨0, 3, -1⟩]).2.atHand = parked.atHand := by
  have hall := alloc_fails_iff_short parked
    ⟨4, 2, true, [.alloc 4, .freeSegment [2, 3] 0], rfl⟩ (by decide)
  have hshort := (hall.1 [⟨0, 3, -1⟩]).1.mpr (by decide)
  refine ⟨by decide, by decide, fun hnone => ?_, hshort, (hall.1 [⟨0, 3, -1⟩]).2 hshort⟩
  exact absurd ((hall.1 [⟨0, 2, -1⟩]).1.mp hnone) (by decide)

/-- At page size one a decode step never fails, whatever it needs. -/
theorem allocDecodeBatch_page_size_one :
    (new 1 1 false).Reachable ∧ (new 1 1 false).freePages.length = 1 ∧
      (new 1 1 false).releasePages.length = 0 ∧ decodePages 1 [(1, -1), (1, -1)] = 2 ∧
      ((new 1 1 false).allocDecodeBatch [(1, -1), (1, -1)]).1 ≠ none :=
  ⟨⟨1, 1, false, [], rfl⟩, by decide, by decide, by decide, by decide⟩

end SparkInfer.Alloc.Paged
