import SparkInfer.Alloc.Capacity
import SparkInfer.Lib.Run
import Mathlib.Logic.Function.Basic

/-!
# The hybrid allocator of sliding-window models

`SWATokenToKVPoolAllocator` pairs a slot of the full-attention pool with a slot of the
sliding-window pool; `full_to_swa_index_mapping` holds the pair of every full slot, `0` for
none.  A call allocates from both pools or fails.  `alloc`, `alloc_extend` and
`alloc_extend_swa_tail` look at both pools before they take anything; `alloc_decode` takes
from both and looks afterwards.
-/

namespace SparkInfer.Alloc

open Lib Option

variable {rows : List (Nat × Int)} {row : RowEnd} {tail : Nat} {out : Option (List Int)} {s' : Swa}
variable {s : Swa}

namespace Paged

/-- `TokenToKVPoolAllocator.free`, the pool of single slots: no deduplication. -/
def tokenFree (a : Paged) (freeIndex : List Int) : Paged :=
  if freeIndex = [] then a
  else
    match a.freeGroup with
    | none =>
      if a.needSort then { a with releasePages := a.releasePages ++ freeIndex }
      else { a with freePages := a.freePages ++ freeIndex }
    | some pending => { a with freeGroup := some (pending ++ [freeIndex]) }

def subFree (a : Paged) (freeIndex : List Int) : Paged :=
  if a.pageSize = 1 then a.tokenFree freeIndex else a.free freeIndex

end Paged

/-- A tensor after `tensor[indices] = values`, an index with its value each. -/
def stored (tensor : Int → Int) (stores : List (Int × Int)) : Int → Int :=
  stores.foldl (fun tensor s => Function.update tensor s.1 s.2) tensor

structure Swa where
  pageSize : Nat
  full : Paged
  swa : Paged
  /-- `full_to_swa_index_mapping`; the entry of `-1` is its last item. -/
  mapping : Int → Int
  freeGroup : Option (List (List Int))
  swaFreeGroup : List (List Int)
  fullFreeGroup : List (List Int)

namespace Swa

open Paged

def new (size sizeSwa pageSize : Nat) (needSort : Bool) : Swa where
  pageSize := pageSize
  full := .new size pageSize needSort
  swa := .new sizeSwa pageSize needSort
  mapping i := if i = -1 then -1 else 0
  freeGroup := none
  swaFreeGroup := []
  fullFreeGroup := []

variable (s : Swa)

def setFullToSwaMapping (fullIndices swaIndices : List Int) : Swa :=
  { s with mapping := stored s.mapping (fullIndices.zip swaIndices) }

def clearFullToSwaMapping (fullIndices : List Int) : Swa :=
  { s with mapping := stored s.mapping (fullIndices.map fun i => (i, 0)) }

def newPagesAvailable (numFullPages numSwaPages : Nat) : Bool :=
  numFullPages ≤ s.full.availableSize / s.pageSize && numSwaPages ≤ s.swa.availableSize / s.pageSize

/-- `translate_loc_from_full_to_swa` on the last slots of a batch. -/
def translate (rows : List RowEnd) : List RowEnd :=
  rows.map fun r => { r with lastLoc := s.mapping r.lastLoc }

def translateDecode (rows : List (Nat × Int)) : List (Nat × Int) :=
  rows.map fun r => (r.1, s.mapping r.2)

/-! ## Allocation

The outer `none` is a failed assertion, the inner one is `None`. -/

def alloc (needSize : Nat) : Option (Option (List Int) × Swa) :=
  if s.pageSize ≠ 1 then none
  else if s.full.availableSize < needSize then some (none, s)
  else if s.swa.availableSize < needSize then some (none, s)
  else
    match s.full.alloc needSize, s.swa.alloc needSize with
    | (some fullIndices, full), (some swaIndices, swa) =>
      some (some fullIndices,
        { s with full := full, swa := swa }.setFullToSwaMapping fullIndices swaIndices)
    | _, _ => none

def allocExtend (rows : List RowEnd) : Option (Option (List Int) × Swa) :=
  if s.pageSize ≤ 1 then none
  else
    let numNewPages := (rows.map fun r => numNewPages s.pageSize r.prefixLen r.seqLen).sum
    if !s.newPagesAvailable numNewPages numNewPages then some (none, s)
    else
      match s.full.allocExtendBatch rows, s.swa.allocExtendBatch (s.translate rows) with
      | (some fullRows, full), (some swaRows, swa) =>
        some (some fullRows.flatten,
          { s with full := full, swa := swa }.setFullToSwaMapping fullRows.flatten swaRows.flatten)
      | _, _ => none

/-- The full slots of the whole extension, sliding-window slots for its last `swaTailLen`
positions only. -/
def allocExtendSwaTail (row : RowEnd) (swaTailLen : Nat) : Option (Option (List Int) × Swa) :=
  let extendNumTokens := row.seqLen - row.prefixLen
  if s.pageSize ≤ 1 ∨ extendNumTokens < swaTailLen then none
  else
    let numFullPages := numNewPages s.pageSize row.prefixLen row.seqLen
    let numSwaPages := ceilDiv swaTailLen s.pageSize
    if !s.newPagesAvailable numFullPages numSwaPages then some (none, s)
    else
      match s.full.allocExtendBatch [row] with
      | (some fullRows, full) =>
        let fullIndices := fullRows.flatten
        let s := { s with full := full }
        if swaTailLen = 0 then some (some fullIndices, s)
        else
          match s.swa.allocExtendBatch [⟨0, swaTailLen, -1⟩] with
          | (some swaRows, swa) =>
            let s := { s with swa := swa }.setFullToSwaMapping
              (fullIndices.drop (fullIndices.length - swaTailLen)) swaRows.flatten
            some (some fullIndices, if swaTailLen < extendNumTokens then
                s.clearFullToSwaMapping (fullIndices.take (fullIndices.length - swaTailLen))
              else s)
          | (none, _) => none
      | (none, _) => none

def allocDecode (rows : List (Nat × Int)) : Option (Option (List Int) × Swa) :=
  if s.pageSize ≤ 1 then none
  else
    match s.full.allocDecodeBatch rows, s.swa.allocDecodeBatch (s.translateDecode rows) with
    | (some fullIndices, full), (some swaIndices, swa) =>
      some (some fullIndices,
        { s with full := full, swa := swa }.setFullToSwaMapping fullIndices swaIndices)
    | (_, full), (_, swa) => some (none, { s with full := full, swa := swa })

/-! ## Giving slots back -/

def expandToFullPages (indices : List Int) : List Int :=
  indices.flatMap fun i => arange (i / (s.pageSize : Int) * s.pageSize) s.pageSize

def freeSwa (freeIndex : List Int) : Swa :=
  if freeIndex = [] then s
  else
    let mappingIndices := if s.pageSize = 1 then freeIndex else s.expandToFullPages freeIndex
    let swaIndices := (mappingIndices.map s.mapping).filter fun i => 0 < i
    let s := s.clearFullToSwaMapping mappingIndices
    match s.freeGroup with
    | some _ => { s with swaFreeGroup := s.swaFreeGroup ++ [swaIndices] }
    | none => { s with swa := s.swa.subFree swaIndices }

def free (freeIndex : List Int) : Swa :=
  if freeIndex = [] then s
  else
    match s.freeGroup with
    | none => { s with full := s.full.subFree freeIndex }.freeSwa freeIndex
    | some pending => { s with freeGroup := some (pending ++ [freeIndex]) }

def freeFull (freeIndex : List Int) : Swa :=
  if freeIndex = [] then s
  else
    match s.freeGroup with
    | none => { s with full := s.full.subFree freeIndex }
    | some _ => { s with fullFreeGroup := s.fullFreeGroup ++ [freeIndex] }

def freeGroupBegin : Swa := { s with freeGroup := some [], swaFreeGroup := [], fullFreeGroup := [] }

def freeGroupEnd : Swa :=
  let pending := s.freeGroup.getD []
  let s := { s with freeGroup := none }
  let s := if pending = [] then s else s.free pending.flatten
  let s := if s.swaFreeGroup = [] then s
    else { s with swaFreeGroup := [], swa := s.swa.subFree s.swaFreeGroup.flatten }
  if s.fullFreeGroup = [] then s
  else { s with fullFreeGroup := [] }.freeFull s.fullFreeGroup.flatten

/-! ## Runs -/

inductive Op
  | alloc (needSize : Nat)
  | allocExtend (rows : List RowEnd)
  | allocExtendSwaTail (row : RowEnd) (swaTailLen : Nat)
  | allocDecode (rows : List (Nat × Int))
  | free (freeIndex : List Int)
  | freeSwa (freeIndex : List Int)
  | freeFull (freeIndex : List Int)
  | freeGroupBegin
  | freeGroupEnd

def step : Op → Option Swa
  | .alloc needSize => (s.alloc needSize).map Prod.snd
  | .allocExtend rows => (s.allocExtend rows).map Prod.snd
  | .allocExtendSwaTail row swaTailLen => (s.allocExtendSwaTail row swaTailLen).map Prod.snd
  | .allocDecode rows => (s.allocDecode rows).map Prod.snd
  | .free freeIndex => some (s.free freeIndex)
  | .freeSwa freeIndex => some (s.freeSwa freeIndex)
  | .freeFull freeIndex => some (s.freeFull freeIndex)
  | .freeGroupBegin => some s.freeGroupBegin
  | .freeGroupEnd => some s.freeGroupEnd

end Swa

/-! ## The two pools -/

namespace Paged

/-- Calls keep the page size, and an allocator that does not sort parks nothing. -/
structure Keeps (a a' : Paged) : Prop where
  pageSize : a'.pageSize = a.pageSize
  direct : a.Direct → a'.Direct

variable (a : Paged)

theorem Keeps.refl : Keeps a a := ⟨rfl, id⟩

theorem Keeps.of_eq {β : Type} {x y : β × Paged} (hxy : x = y) (h : Keeps a x.2) : Keeps a y.2 :=
  hxy ▸ h

theorem keeps_takePages {β : Type} (b : Bool) (n : Nat) (out : β) :
    Keeps a (takePages (if b then a.mergeAndSortFree else a) n out).2 :=
  ⟨(takePages_pageSize n out).trans pageSize_merge, fun hd => direct_takePages (direct_merge hd) n out⟩

theorem keeps_alloc (n : Nat) : Keeps a (a.alloc n).2 := keeps_takePages a _ _ _

theorem keeps_allocExtendBatch (rows : List RowEnd) : Keeps a (a.allocExtendBatch rows).2 :=
  keeps_takePages a _ _ _

theorem keeps_allocDecodeBatch : Keeps a (a.allocDecodeBatch rows).2 := keeps_takePages a _ _ _

theorem keeps_subFree (xs : List Int) : Keeps a (a.subFree xs) := by
  unfold subFree
  split
  · unfold tokenFree
    split
    · exact .refl a
    split
    · split_ifs with hsort
      · refine ⟨rfl, fun _ hs => ?_⟩
        rw [hsort] at hs
        cases hs
      · exact ⟨rfl, id⟩
    · exact ⟨rfl, id⟩
  · exact ⟨(grows_free a xs).pageSize, (grows_free a xs).direct⟩

end Paged

namespace Swa

open Paged

section Cases

variable {s : Swa}

/-- A call that looks first fails and changes nothing, or it takes from the pools. -/
inductive Answered (s : Swa) : Option (List Int) → Swa → Prop
  | failed : Answered s none s
  | took {xs : List Int} {s' : Swa} (hsize : s'.pageSize = s.pageSize)
      (hfull : Keeps s.full s'.full) (hswa : Keeps s.swa s'.swa) : Answered s (some xs) s'

theorem answered_alloc {needSize : Nat} (h : s.alloc needSize = some (out, s')) :
    Answered s out s' := by
  unfold alloc at h
  split at h
  · cases h
  split at h
  · cases h
    exact .failed
  split at h
  · cases h
    exact .failed
  split at h
  · rename_i hfull hswa
    cases h
    exact .took rfl (.of_eq _ hfull (keeps_alloc _ _)) (.of_eq _ hswa (keeps_alloc _ _))
  · cases h

theorem answered_allocExtend {rows : List RowEnd} (h : s.allocExtend rows = some (out, s')) :
    Answered s out s' := by
  unfold allocExtend at h
  split at h
  · cases h
  dsimp only at h
  split at h
  · cases h
    exact .failed
  split at h
  · rename_i hfull hswa
    cases h
    exact .took rfl (.of_eq _ hfull (keeps_allocExtendBatch _ _))
      (.of_eq _ hswa (keeps_allocExtendBatch _ _))
  · cases h

theorem answered_allocExtendSwaTail (h : s.allocExtendSwaTail row tail = some (out, s')) :
    Answered s out s' := by
  unfold allocExtendSwaTail at h
  dsimp only at h
  split at h
  · cases h
  split at h
  · cases h
    exact .failed
  split at h
  · rename_i hfull
    split at h
    · cases h
      exact .took rfl (.of_eq _ hfull (keeps_allocExtendBatch _ _)) (.refl _)
    split at h
    · rename_i hswa
      cases h
      split <;> exact .took rfl (.of_eq _ hfull (keeps_allocExtendBatch _ _))
        (.of_eq _ hswa (keeps_allocExtendBatch _ _))
    · cases h
  · cases h

theorem allocDecode_eq (h : s.allocDecode rows = some (out, s')) : 1 < s.pageSize ∧
    s'.pageSize = s.pageSize ∧ s'.full = (s.full.allocDecodeBatch rows).2 ∧
    s'.swa = (s.swa.allocDecodeBatch (s.translateDecode rows)).2 ∧
    (out = none → s'.mapping = s.mapping ∧ ((s.full.allocDecodeBatch rows).1 = none ∨
      (s.swa.allocDecodeBatch (s.translateDecode rows)).1 = none)) := by
  unfold allocDecode at h
  split_ifs at h with hsize
  refine ⟨Nat.lt_of_not_le hsize, ?_⟩
  generalize s.full.allocDecodeBatch rows = fullCall at h ⊢
  generalize s.swa.allocDecodeBatch (s.translateDecode rows) = swaCall at h ⊢
  obtain ⟨fullOut, full⟩ := fullCall
  obtain ⟨swaOut, swa⟩ := swaCall
  cases fullOut with
  | none =>
    cases h
    exact ⟨rfl, rfl, rfl, fun _ => ⟨rfl, .inl rfl⟩⟩
  | some fullIndices =>
    cases swaOut with
    | none =>
      cases h
      exact ⟨rfl, rfl, rfl, fun _ => ⟨rfl, .inr rfl⟩⟩
    | some swaIndices =>
      cases h
      exact ⟨rfl, rfl, rfl, nofun⟩

end Cases

/-- Both pools have the page size of the allocator and park no pages without sorting. -/
structure Wired (s : Swa) : Prop where
  fullSize : s.full.pageSize = s.pageSize
  swaSize : s.swa.pageSize = s.pageSize
  fullDirect : s.full.Direct
  swaDirect : s.swa.Direct

section Wired

variable {s : Swa}

theorem Wired.new (size sizeSwa pageSize : Nat) (needSort : Bool) :
    (Swa.new size sizeSwa pageSize needSort).Wired := ⟨rfl, rfl, fun _ => rfl, fun _ => rfl⟩

variable (h : s.Wired)
include h

theorem Wired.replace (hsize : s'.pageSize = s.pageSize) (hfull : Keeps s.full s'.full)
    (hswa : Keeps s.swa s'.swa) : s'.Wired where
  fullSize := hfull.pageSize.trans (h.fullSize.trans hsize.symm)
  swaSize := hswa.pageSize.trans (h.swaSize.trans hsize.symm)
  fullDirect := hfull.direct h.fullDirect
  swaDirect := hswa.direct h.swaDirect

theorem Wired.answered (ha : Answered s out s') : s'.Wired := by
  cases ha with
  | failed => exact h
  | took hsize hfull hswa => exact h.replace hsize hfull hswa

theorem Wired.allocDecode (hrun : s.allocDecode rows = some (out, s')) : s'.Wired := by
  obtain ⟨-, hsize, hfull, hswa, -⟩ := allocDecode_eq hrun
  exact h.replace hsize (hfull ▸ keeps_allocDecodeBatch _) (hswa ▸ keeps_allocDecodeBatch _)

theorem Wired.freeSwa (xs : List Int) : (s.freeSwa xs).Wired := by
  unfold Swa.freeSwa
  split
  · exact h
  dsimp only
  split
  · exact h.replace rfl (.refl _) (.refl _)
  · exact h.replace rfl (.refl _) (keeps_subFree _ _)

theorem Wired.free (xs : List Int) : (s.free xs).Wired := by
  unfold Swa.free
  split
  · exact h
  split
  · have hfull : { s with full := s.full.subFree xs }.Wired :=
      h.replace rfl (keeps_subFree _ _) (.refl _)
    exact hfull.freeSwa xs
  · exact h.replace rfl (.refl _) (.refl _)

theorem Wired.freeFull (xs : List Int) : (s.freeFull xs).Wired := by
  unfold Swa.freeFull
  split
  · exact h
  split
  · exact h.replace rfl (keeps_subFree _ _) (.refl _)
  · exact h.replace rfl (.refl _) (.refl _)

theorem Wired.freeGroupEnd : s.freeGroupEnd.Wired := by
  have hclosed : { s with freeGroup := none }.Wired := h.replace rfl (.refl _) (.refl _)
  have hpending : (if s.freeGroup.getD [] = [] then { s with freeGroup := none }
      else { s with freeGroup := none }.free (s.freeGroup.getD []).flatten).Wired := by
    split
    · exact hclosed
    · exact hclosed.free _
  unfold Swa.freeGroupEnd
  dsimp only
  generalize (if s.freeGroup.getD [] = [] then { s with freeGroup := none }
      else { s with freeGroup := none }.free (s.freeGroup.getD []).flatten) = s₁
    at hpending ⊢
  have hswa : (if s₁.swaFreeGroup = [] then s₁
      else { s₁ with swaFreeGroup := [], swa := s₁.swa.subFree s₁.swaFreeGroup.flatten }).Wired := by
    split
    · exact hpending
    · exact hpending.replace rfl (.refl _) (keeps_subFree _ _)
  generalize (if s₁.swaFreeGroup = [] then s₁
      else { s₁ with swaFreeGroup := [], swa := s₁.swa.subFree s₁.swaFreeGroup.flatten }) = s₂
    at hswa ⊢
  split
  · exact hswa
  · have hempty : { s₂ with fullFreeGroup := [] }.Wired := hswa.replace rfl (.refl _) (.refl _)
    exact hempty.freeFull _

theorem Wired.step {op : Op} (hstep : s.step op = some s') : s'.Wired := by
  cases op with
  | alloc n =>
    obtain ⟨⟨out, _⟩, hrun, rfl⟩ := map_eq_some_iff.mp hstep
    exact h.answered (answered_alloc hrun)
  | allocExtend rows =>
    obtain ⟨⟨out, _⟩, hrun, rfl⟩ := map_eq_some_iff.mp hstep
    exact h.answered (answered_allocExtend hrun)
  | allocExtendSwaTail row tail =>
    obtain ⟨⟨out, _⟩, hrun, rfl⟩ := map_eq_some_iff.mp hstep
    exact h.answered (answered_allocExtendSwaTail hrun)
  | allocDecode rows =>
    obtain ⟨⟨out, _⟩, hrun, rfl⟩ := map_eq_some_iff.mp hstep
    exact h.allocDecode hrun
  | free xs =>
    cases hstep
    exact h.free xs
  | freeSwa xs =>
    cases hstep
    exact h.freeSwa xs
  | freeFull xs =>
    cases hstep
    exact h.freeFull xs
  | freeGroupBegin =>
    cases hstep
    exact h.replace rfl (.refl _) (.refl _)
  | freeGroupEnd =>
    cases hstep
    exact h.freeGroupEnd

end Wired

/-! ## A failed allocation -/

def Reachable (s : Swa) : Prop :=
  ∃ size sizeSwa pageSize needSort ops, runFrom step (new size sizeSwa pageSize needSort) ops = some s

theorem Reachable.wired (h : s.Reachable) : s.Wired := by
  obtain ⟨size, sizeSwa, pageSize, needSort, ops, hrun⟩ := h
  have hall := @guarded_of_forall _ _ step (fun _ _ => True) (fun _ _ => trivial)
    (new size sizeSwa pageSize needSort) ops
  exact runFrom_invariant (fun _ _ _ hw _ hstep => hw.step hstep) (.new _ _ _ _) hall hrun

/-- Both pools hold the same pages in their lists, and the mapping is the same. -/
structure SamePools (s s' : Swa) : Prop where
  full : s'.full.atHand = s.full.atHand
  swa : s'.swa.atHand = s.swa.atHand
  mapping : s'.mapping = s.mapping

theorem Answered.samePools (h : Answered s none s') : SamePools s s' := by
  cases h
  exact ⟨rfl, rfl, rfl⟩

def FitsAlike (s : Swa) (rows : List (Nat × Int)) : Prop :=
  decodePages s.pageSize rows ≤ s.full.freePages.length + s.full.releasePages.length ↔
    decodePages s.pageSize rows ≤ s.swa.freePages.length + s.swa.releasePages.length

instance (s : Swa) (rows : List (Nat × Int)) : Decidable (s.FitsAlike rows) :=
  inferInstanceAs (Decidable (_ ↔ _))

theorem decodePages_translateDecode (s : Swa) (k : Nat) :
    decodePages k (s.translateDecode rows) = decodePages k rows := by
  simp [decodePages, translateDecode, Function.comp_def]

theorem Wired.allocDecodeBatch_none_iff (h : s.Wired) (hp : 1 < s.pageSize)
    (hfits : s.FitsAlike rows) : (s.full.allocDecodeBatch rows).1 = none ↔
      (s.swa.allocDecodeBatch (s.translateDecode rows)).1 = none := by
  rw [Paged.allocDecodeBatch_none_iff h.fullDirect (h.fullSize ▸ hp),
    Paged.allocDecodeBatch_none_iff h.swaDirect (h.swaSize ▸ hp), decodePages_translateDecode,
    h.fullSize, h.swaSize]
  have hneg := not_congr hfits
  rwa [not_le, not_le] at hneg

theorem Wired.samePools_allocDecode (h : s.Wired)
    (hrun : s.allocDecode rows = some (none, s')) (hfits : s.FitsAlike rows) : SamePools s s' := by
  obtain ⟨hp, -, hfull', hswa', hnone⟩ := allocDecode_eq hrun
  obtain ⟨hmapping, hnone⟩ := hnone rfl
  have hiff := h.allocDecodeBatch_none_iff hp hfits
  have hfull := hnone.elim id hiff.mpr
  exact ⟨hfull' ▸ atHand_of_takePages_none hfull,
    hswa' ▸ atHand_of_takePages_none (hiff.mp hfull), hmapping⟩

/-- A call that returns `None` loses no page of either pool and keeps the mapping:
`alloc_decode` as long as the two pools do not disagree about the batch, the others always. -/
theorem failed_alloc_changes_nothing (s : Swa) (h : s.Reachable) :
    (∀ needSize s', s.alloc needSize = some (none, s') → SamePools s s') ∧
    (∀ rows s', s.allocExtend rows = some (none, s') → SamePools s s') ∧
    (∀ row swaTailLen s', s.allocExtendSwaTail row swaTailLen = some (none, s') → SamePools s s') ∧
    ∀ rows s', s.allocDecode rows = some (none, s') → s.FitsAlike rows → SamePools s s' := by
  exact ⟨fun _ _ hrun => (answered_alloc hrun).samePools,
    fun _ _ hrun => (answered_allocExtend hrun).samePools,
    fun _ _ _ hrun => (answered_allocExtendSwaTail hrun).samePools,
    fun rows s' hrun hfits => h.wired.samePools_allocDecode hrun hfits⟩

def evenPools : Swa := new 4 4 2 false

theorem failed_alloc_changes_nothing_evenPools :
    (∃ s', evenPools.allocExtend [⟨0, 5, -1⟩] = some (none, s') ∧ SamePools evenPools s') ∧
    ∃ s', evenPools.allocDecode [(1, -1), (1, -1), (1, -1)] = some (none, s') ∧
      SamePools evenPools s' := by
  have hall := failed_alloc_changes_nothing evenPools ⟨4, 4, 2, false, [], rfl⟩
  exact ⟨⟨_, rfl, hall.2.1 [⟨0, 5, -1⟩] _ rfl⟩,
    ⟨_, rfl, hall.2.2.2 [(1, -1), (1, -1), (1, -1)] _ rfl (by decide)⟩⟩

/-- Two full pages and one sliding-window page, one of each taken. -/
def unevenPools : Option Swa := runFrom step (new 4 2 2 false) [.allocExtend [⟨0, 2, -1⟩]]

/-- The decode step takes the second full page, finds no sliding-window page and returns
`None`: the full page is lost. -/
theorem allocDecode_loses_page :
    ∃ s s', unevenPools = some s ∧ s.Reachable ∧ s.allocDecode [(3, 3)] = some (none, s') ∧
      s.full.atHand = {2} ∧ s'.full.atHand = 0 :=
  ⟨_, _, rfl, ⟨4, 2, 2, false, [.allocExtend [⟨0, 2, -1⟩]], rfl⟩, rfl, rfl, rfl⟩

end Swa

end SparkInfer.Alloc
