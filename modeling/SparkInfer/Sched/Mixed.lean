import SparkInfer.Alloc.Capacity
import SparkInfer.Sched.Admission

/-!
# A decode step mixed into a prefill

With mixed chunks the running batch decodes in the same forward pass as the admitted
prefill, without a memory check of its own.  The pass starts its offset with one token for
every running request and the estimate for it; what the decode rows take is whole pages.
-/

namespace SparkInfer.Sched.PrefillAdder

open Lib Alloc Alloc.Paged Radix List

variable {H B : Type} {cfg : AdderConfig} {hf : HashFns H B} {nodes : Finset NodeId}
variable {held : List NodeId} {cache : RadixCache H B} {running : List RunningReq} {ratio : ℚ}
variable {remInput : Int} {remChunk : Option Int} {a : PrefillAdder H B}

/-- What `alloc_decode` takes for the rows of the running batch, each with its length after
the step and its last slot. -/
def decodeNeed (cfg : AdderConfig) (rows : List (Nat × Int)) : Int :=
  (decodePages cfg.cache.pageSize rows * cfg.cache.pageSize : Nat)

/-- The decode rows are served after the admitted requests if the offset the pass started
with covers their pages. -/
theorem mixed_decode_fits (rows : List (Nat × Int)) (hinv : Inv cfg.cache hf cache nodes held)
    (hpages : cache.allocator.pageSize = cfg.cache.pageSize)
    (hkept : decodeNeed cfg rows ≤
      (init cfg cache running ratio remInput remChunk running.length).remTotalTokenOffset)
    (hpass : Pass cfg nodes (init cfg cache running ratio remInput remChunk running.length) a)
    (hnew : a.canRunList ≠ []) :
    a.needed cfg + decodeNeed cfg rows ≤ a.availableAndEvictable := by
  have hdvd : (cfg.cache.pageSize : Int) ∣ decodeNeed cfg rows :=
    Int.natCast_dvd_natCast.mpr (Nat.dvd_mul_left _ _)
  obtain ⟨held', hw⟩ := hpass.within (within_init hinv hpages hdvd hkept)
  rw [add_comm]
  exact hw.fits hnew

def pagedBy (pageSize : Nat) (hpos : 0 < pageSize) : AdderConfig :=
  { AdderConfig.small with cache := { Config.small with pageSize := pageSize, pageSize_pos := hpos } }

def sixteenFree (pageSize : Nat) (hpos : 0 < pageSize) : RadixCache Unit Unit :=
  .init (pagedBy pageSize hpos).cache 0 (.new 16 pageSize false)

/-- Four running requests of eight tokens with one token left. -/
def fourRunning (pageSize : Nat) (hpos : 0 < pageSize) : PrefillAdder Unit Unit :=
  init (pagedBy pageSize hpos) (sixteenFree pageSize hpos) (.replicate 4 ⟨7, 1, 2, false⟩) (1 / 2) 16384
    none 4

def fourTokens : WaitingReq := ⟨4, 0, 0, 0, 1, false, by decide⟩

theorem mixed_decode_fits_one : ∃ a, a.canRunList = [⟨fourTokens, 4⟩] ∧
    Pass (pagedBy 1 (by decide)) {0} (fourRunning 1 (by decide)) a ∧
    a.needed (pagedBy 1 (by decide)) + decodeNeed (pagedBy 1 (by decide)) (.replicate 4 (9, 0)) ≤
      a.availableAndEvictable := by
  have hok : okAnd ((fourRunning 1 (by decide)).addOneReq (pagedBy 1 (by decide)) fourTokens none true)
      (fun x => decide (x.1.canRunList = [⟨fourTokens, 4⟩])) = true := by decide +kernel
  obtain ⟨⟨a, res⟩, hrun, hlist⟩ := exists_of_okAnd hok
  have hlist := of_decide_eq_true hlist
  have hpass : Pass (pagedBy 1 (by decide)) {0} (fourRunning 1 (by decide)) a :=
    .one .start (mem_singleton.mpr rfl) hrun
  have hinv : Inv (pagedBy 1 (by decide)).cache .unit (sixteenFree 1 (by decide)) {0} [] := reset_spec _
  exact ⟨a, hlist, hpass, mixed_decode_fits _ hinv rfl (by decide +kernel) hpass (hlist ▸ cons_ne_nil _ _)⟩

/-- On pages of four, one token for each of four requests is not the page each of them opens:
four tokens are admitted, and 16 are needed for the decode rows of the 12 that are left. -/
theorem mixed_decode_runs_short : ∃ a res, (fourRunning 4 (by decide)).addOneReq
      (pagedBy 4 (by decide)) fourTokens none true = .ok (a, res) ∧
    a.canRunList = [⟨fourTokens, 4⟩] ∧ a.availableAndEvictable = 16 ∧
    a.needed (pagedBy 4 (by decide)) = 4 ∧
    decodeNeed (pagedBy 4 (by decide)) (.replicate 4 (9, 0)) = 16 := by
  have hok : okAnd ((fourRunning 4 (by decide)).addOneReq (pagedBy 4 (by decide)) fourTokens none true)
      (fun x => decide (x.1.canRunList = [⟨fourTokens, 4⟩] ∧ x.1.availableAndEvictable = 16 ∧
        x.1.needed (pagedBy 4 (by decide)) = 4)) = true := by decide +kernel
  obtain ⟨⟨a, res⟩, hrun, hsize⟩ := exists_of_okAnd hok
  obtain ⟨hlist, havail, hneed⟩ := of_decide_eq_true hsize
  exact ⟨a, res, hrun, hlist, havail, hneed, by decide⟩

end SparkInfer.Sched.PrefillAdder
