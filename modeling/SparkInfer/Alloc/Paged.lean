import SparkInfer.Lib.CommonPrefix
import Mathlib.Data.List.Dedup
import Mathlib.Data.List.Sort
import Mathlib.Data.Int.Order.Basic

/-!
# The paged KV slot allocator

`PagedTokenToKVPoolAllocator` hands out pages of `page_size` consecutive slots.
Page 0 is the padding page; the pages `1 .. num_pages` are either in `free_pages`
or `release_pages`, pending in an open free group, or out.
-/

namespace SparkInfer.Alloc

structure Paged where
  pageSize : Nat
  numPages : Nat
  needSort : Bool
  freePages : List Int
  releasePages : List Int
  /-- `None` frees right away; a list holds the tensors until `free_group_end`. -/
  freeGroup : Option (List (List Int))
  freePageRepsGroup : List (List Int)

namespace Paged

def stride {α : Type} (k : Nat) (xs : List α) : List α :=
  (List.range ((xs.length + k - 1) / k)).filterMap fun i => xs[i * k]?

def arange (lo : Int) (n : Nat) : List Int := (List.range n).map fun i : Nat => lo + (i : Int)

def unique (xs : List Int) : List Int := xs.dedup.mergeSort

variable (a : Paged)

def clear : Paged :=
  { a with
    freePages := arange 1 a.numPages
    releasePages := []
    freeGroup := none
    freePageRepsGroup := [] }

def new (size pageSize : Nat) (needSort : Bool) : Paged :=
  clear
    { pageSize := pageSize
      numPages := size / pageSize
      needSort := needSort
      freePages := []
      releasePages := []
      freeGroup := none
      freePageRepsGroup := [] }

def availableSize : Nat :=
  (a.freePages.length + a.releasePages.length) * a.pageSize

def mergeAndSortFree : Paged :=
  if 0 < a.releasePages.length then
    { a with freePages := (a.freePages ++ a.releasePages).mergeSort, releasePages := [] }
  else a

def releasePageIds (pageIds : List Int) : Paged :=
  if a.needSort then { a with releasePages := pageIds ++ a.releasePages }
  else { a with freePages := pageIds ++ a.freePages }

def free (freeIndex : List Int) : Paged :=
  if freeIndex = [] then a
  else
    match a.freeGroup with
    | none => a.releasePageIds (unique (freeIndex.map (· / (a.pageSize : Int))))
    | some pending => { a with freeGroup := some (pending ++ [freeIndex]) }

/-- The stride slices of `free_segment`: one slot of every page of a row segment
that starts at row position `startPos`. -/
def pieces (pageSize : Nat) (freeIndex : List Int) (startPos : Nat) : List (List Int) :=
  let offset := startPos % pageSize
  if offset = 0 then [stride pageSize freeIndex]
  else [freeIndex.take 1, stride pageSize (freeIndex.drop (pageSize - offset))]

def freeSegment (freeIndex : List Int) (startPos : Nat) : Paged :=
  if freeIndex = [] then a
  else
    let ps := pieces a.pageSize freeIndex startPos
    match a.freeGroup with
    | none => a.releasePageIds (ps.flatMap fun p => p.map (· / (a.pageSize : Int)))
    | some _ => { a with freePageRepsGroup := a.freePageRepsGroup ++ ps }

/-- The loop of `free_segments`; `prevEnd` is the end of the previous segment. -/
def freeSegmentsFrom (a : Paged) (prevEnd : Option Nat) : List (List Int × Nat) → Paged
  | [] => a
  | (freeIndex, startPos) :: segments =>
    if freeIndex = [] then a.freeSegmentsFrom prevEnd segments
    else
      let segEnd := startPos + freeIndex.length
      let sharesPage : Bool :=
        match prevEnd with
        | none => false
        | some e => startPos / a.pageSize == (e - 1) / a.pageSize
      let boundary := (startPos / a.pageSize + 1) * a.pageSize
      let a' :=
        if sharesPage then a.freeSegment (freeIndex.drop (boundary - startPos)) boundary
        else a.freeSegment freeIndex startPos
      a'.freeSegmentsFrom (some segEnd) segments

def freeSegments (segments : List (List Int × Nat)) : Paged :=
  a.freeSegmentsFrom none segments

def freeGroupBegin : Paged :=
  { a with freeGroup := some [], freePageRepsGroup := [] }

def freeGroupEnd : Paged :=
  let pending := a.freeGroup.getD []
  let a := { a with freeGroup := none }
  let a := if pending = [] then a else a.free pending.flatten
  if a.freePageRepsGroup = [] then a
  else
    { a.releasePageIds (a.freePageRepsGroup.flatten.map (· / (a.pageSize : Int))) with
      freePageRepsGroup := [] }

/-! ## Allocation -/

def pageSlots (pageSize : Nat) (pages : List Int) : List Int :=
  pages.flatMap fun p => arange (p * pageSize) pageSize

def alloc (needSize : Nat) : Option (List Int) × Paged :=
  let numPages := needSize / a.pageSize
  let a := if a.needSort && a.freePages.length < numPages then a.mergeAndSortFree else a
  if a.freePages.length < numPages then (none, a)
  else
    (some (pageSlots a.pageSize (a.freePages.take numPages)),
      { a with freePages := a.freePages.drop numPages })

def ceilDiv (n k : Nat) : Nat := (n + k - 1) / k

/-- `alloc_extend_naive` for one request: the rest of the last page after
`lastLoc`, then whole new pages, then the head of one more page. -/
def extendIndices (pageSize prefixLen seqLen : Nat) (lastLoc : Int) (freePages : List Int) :
    List Int :=
  let num1 := min seqLen (ceilDiv prefixLen pageSize * pageSize) - prefixLen
  let part1 := arange (lastLoc + 1) num1
  if prefixLen + num1 = seqLen then part1
  else
    let numFull := seqLen / pageSize - ceilDiv prefixLen pageSize
    let part2 := pageSlots pageSize (freePages.take numFull)
    if prefixLen + num1 + numFull * pageSize = seqLen then part1 ++ part2
    else
      let num3 := seqLen - seqLen / pageSize * pageSize
      part1 ++ part2 ++ arange (freePages.getD numFull 0 * pageSize) num3

def numNewPages (pageSize prefixLen seqLen : Nat) : Nat :=
  ceilDiv seqLen pageSize - ceilDiv prefixLen pageSize

def allocExtend (prefixLen seqLen : Nat) (lastLoc : Int) : Option (List Int) × Paged :=
  let extendNumTokens := seqLen - prefixLen
  let a :=
    if a.needSort && a.freePages.length < extendNumTokens / a.pageSize + 1 + 1 then
      a.mergeAndSortFree
    else a
  let n := numNewPages a.pageSize prefixLen seqLen
  if a.freePages.length < n then (none, a)
  else
    (some (extendIndices a.pageSize prefixLen seqLen lastLoc a.freePages),
      { a with freePages := a.freePages.drop n })

def allocDecode (seqLen : Nat) (lastLoc : Int) : Option (List Int) × Paged :=
  let a := if a.needSort && a.freePages.length < 1 then a.mergeAndSortFree else a
  let outIndices :=
    if numNewPages a.pageSize (seqLen - 1) seqLen = 0 then [lastLoc + 1]
    else [a.freePages.getD 0 0 * a.pageSize]
  let n := if seqLen % a.pageSize = 1 then 1 else 0
  if a.freePages.length < n then (none, a)
  else (some outIndices, { a with freePages := a.freePages.drop n })

/-- The slots of a prefill: single tokens at page size one, else `alloc_extend`. -/
def allocForExtend (prefixLen seqLen : Nat) (lastLoc : Int) : Option (List Int) × Paged :=
  if a.pageSize = 1 then a.alloc (seqLen - prefixLen) else a.allocExtend prefixLen seqLen lastLoc

def allocForDecode (seqLen : Nat) (lastLoc : Int) : Option (List Int) × Paged :=
  if a.pageSize = 1 then a.alloc 1 else a.allocDecode seqLen lastLoc

end Paged

end SparkInfer.Alloc
