import SparkInfer.Commit.Finish
import Mathlib.Algebra.BigOperators.Group.List.Basic
import Mathlib.Algebra.Ring.Nat

/-!
# Host and device in step

The device is ahead of the host by the results that are still to be processed.  The
tokens of the request with the tokens of these results are what the device has sampled;
all but the last of them are written, and the committed length trails by what the
results are yet to count.
-/

namespace SparkInfer.Commit

open List Option

variable {G : Type} {cfg : Config G}
variable {pageSize : ℕ} {key : List Token} {row : ℕ → Option Token} {q : List Pending}

/-! ## What is in the tree -/

/-- Every position below the handled length holds what was written for the token of the
key. -/
structure Handed.Sound (h : Handed) : Prop where
  length : h.key.length = h.len
  row : ∀ i < h.len, h.row i = h.key[i]?

theorem Handed.Sound.serves {h : Handed} (hs : h.Sound) {i : ℕ}
    (hserves : h.serves pageSize key i = true) : i < key.length ∧ h.row i = key[i]? := by
  simp only [Handed.serves, Bool.and_eq_true, decide_eq_true_eq] at hserves
  obtain ⟨hlt, htake⟩ := hserves
  have hlen : i < h.key.length := hlt.trans_le (Nat.div_mul_le_self _ _)
  have hat : h.key[i]? = key[i]? := by
    rw [← getElem?_take_of_lt (Nat.lt_succ_self i), htake, getElem?_take_of_lt (Nat.lt_succ_self i)]
  refine ⟨?_, (hs.row i (hs.length ▸ hlen)).trans hat⟩
  rw [List.getElem?_eq_getElem hlen] at hat
  exact (List.getElem?_eq_some_iff.mp hat.symm).1

theorem matchRow_spec {cached : List Handed} {sources : List ℕ} {row' : ℕ → Option Token}
    (hsound : ∀ h ∈ cached, h.Sound)
    (hmatch : matchRow pageSize cached key sources row = some row') :
    (∀ i < sources.length, i < key.length ∧ row' i = key[i]?) ∧
      ∀ i, sources.length ≤ i → row' i = row i := by
  unfold matchRow at hmatch
  dsimp only at hmatch
  split at hmatch
  · rename_i hall
    cases hmatch
    refine ⟨fun i hi => ?_, fun i hi => ?_⟩
    · have hany := all_eq_true.mp hall i (mem_range.mpr hi)
      obtain ⟨h, hsource, hserves⟩ := (any_eq_true_iff_get _ _).mp hany |>.elim fun hsome hs =>
        (⟨_, (some_get hsome).symm, hs⟩ : ∃ h, (sources[i]?).bind (cached[·]?) = some h ∧
          h.serves pageSize key i = true)
      obtain ⟨j, -, hj⟩ := bind_eq_some_iff.mp hsource
      dsimp only
      rw [hsource]
      exact (hsound h (mem_of_getElem? hj)).serves hserves
    · dsimp only
      rw [getElem?_eq_none hi]
      rfl
  · cases hmatch

/-- What is handed over is sound where the row follows the tokens and the positions whose
token was replaced are not handled. -/
theorem Handed.sound_of {origin output output' ts more : List Token} {handled : ℕ}
    (hrow : ∀ i < handled, row i = (origin ++ (output ++ ts) ++ more)[i]?)
    (hlen : handled ≤ (origin ++ (output ++ ts)).length)
    (hsame : output'.length = (output ++ ts).length)
    (hchanged : ∀ j, output'[j]? ≠ (output ++ ts)[j]? → handled ≤ origin.length + j) :
    Handed.Sound { key := (origin ++ output').take handled, len := handled, row := row } := by
  refine ⟨?_, fun i hi => ?_⟩
  · rw [length_take, length_append, hsame, ← length_append]
    exact min_eq_left hlen
  change row i = ((origin ++ output').take handled)[i]?
  rw [hrow i hi, getElem?_take_of_lt hi, getElem?_append_left (hi.trans_le hlen)]
  by_cases horigin : i < origin.length
  · rw [getElem?_append_left horigin, getElem?_append_left horigin]
  rw [getElem?_append_right (not_lt.mp horigin), getElem?_append_right (not_lt.mp horigin)]
  have hlt : i < handled := hi
  by_contra hne
  have hle := hchanged _ (Ne.symm hne)
  omega

/-! ## Results to be processed -/

def Pending.uncounted (cfg : Config G) (p : Pending) : ℕ :=
  match p.kind with
  | .verify => p.tokens.length
  | .mixed => if cfg.spec then 1 else 0
  | _ => 0

structure Pending.Formed (cfg : Config G) (p : Pending) : Prop where
  nonempty : p.tokens ≠ []
  single : p.kind ≠ .verify → p.tokens.length = 1
  decode : p.kind = .decode → cfg.spec = false
  verify : p.kind = .verify → cfg.spec = true

def sampled (q : List Pending) : List Token := q.flatMap Pending.tokens

def uncounted (cfg : Config G) (q : List Pending) : ℕ := (q.map (Pending.uncounted cfg)).sum

theorem sampled_cons (p : Pending) : sampled (p :: q) = p.tokens ++ sampled q :=
  flatMap_cons

theorem sampled_snoc (p : Pending) : sampled (q ++ [p]) = sampled q ++ p.tokens := by
  simp [sampled]

theorem uncounted_cons (p : Pending) :
    uncounted cfg (p :: q) = p.uncounted cfg + uncounted cfg q := by
  simp [uncounted]

theorem uncounted_snoc (p : Pending) :
    uncounted cfg (q ++ [p]) = uncounted cfg q + p.uncounted cfg := by
  simp [uncounted]

theorem length_sampled_le (hq : q.length ≤ 1) (hformed : ∀ p ∈ q, p.Formed cfg) :
    (sampled q).length ≤ uncounted cfg q + 1 := by
  match q, hq with
  | [], _ => exact Nat.zero_le _
  | [p], _ =>
    have hp := hformed p (mem_singleton_self p)
    have hsampled : sampled [p] = p.tokens := by simp [sampled]
    have huncounted : uncounted cfg [p] = p.uncounted cfg := by simp [uncounted]
    rw [hsampled, huncounted]
    by_cases hkind : p.kind = .verify
    · simp only [Pending.uncounted, hkind]
      omega
    · rw [hp.single hkind]
      omega

/-! ## Where a request stands

`q` lists the results of the request that are still to be processed, oldest first. -/

/-- The sampled tokens of a request whose prompt is written. -/
structure Aligned (cfg : Config G) (r : Req G) (q : List Pending) (extra : ℕ) : Prop where
  formed : ∀ p ∈ q, p.Formed cfg
  tail : ∀ p ∈ q.tail, p.kind ≠ .extend
  prompt : ∀ p ∈ q.head?, p.kind = .extend → r.fillIds = r.originInputIds ++ r.outputIds
  origin : r.originInputIds.length ≤ r.seqLen
  length : (r.originInputIds ++ r.outputIds ++ sampled q).length = r.seqLen + 1
  last : (r.originInputIds ++ r.outputIds ++ sampled q)[r.seqLen]? = some r.lastToken
  row : ∀ i < r.seqLen, r.row i = (r.originInputIds ++ r.outputIds ++ sampled q)[i]?
  /-- `extra` is what a decode has committed ahead of its launch. -/
  committed : r.kvCommittedLen + uncounted cfg q = r.seqLen + extra

/-- The last chunk is launched; the results of middle chunks may be outstanding. -/
structure Running (cfg : Config G) (r : Req G) (q : List Pending) (extra : ℕ) : Prop where
  holds : r.holdsKv = true
  unfinished : r.finished = false
  resident : r.isRetracted = false
  ended : r.extendEnd = r.fillIds.length
  fill : r.fillIds <+: r.originInputIds ++ r.outputIds
  aligned : ∃ mids rest, q = mids ++ rest ∧ mids.length = r.inflightMiddleChunks ∧
    (∀ p ∈ mids, p.kind = .extend) ∧ Aligned cfg r rest extra

/-- A request in the middle of its prompt; `written` positions of it are in the row. -/
structure Chunked (r : Req G) (q : List Pending) (written : ℕ) (middle : ℕ) : Prop where
  holds : r.holdsKv = true
  unfinished : r.finished = false
  resident : r.isRetracted = false
  fill : r.fillIds = r.originInputIds ++ r.outputIds
  committed : r.kvCommittedLen = r.extendEnd
  ended : r.extendEnd ≤ r.fillIds.length
  below : r.prefixLen ≤ r.extendEnd
  row : ∀ i < written, r.row i = r.fillIds[i]?
  inflight : q.length + middle = r.inflightMiddleChunks
  chunks : ∀ p ∈ q, p.kind = .extend

/-- `_refresh_fill_ids` can build on the fill ids. -/
def FillOk (r : Req G) : Prop :=
  r.originInputIds.length ≤ r.fillIds.length →
    r.fillIds.length - r.originInputIds.length ≤ r.outputIds.length →
    r.fillIds <+: r.originInputIds ++ r.outputIds

inductive Phase (cfg : Config G) (r : Req G) (q : List Pending) : Prop
  | done (holds : r.holdsKv = false) (finished : r.finished = true) (sync : cfg.overlap = false → q = [])
  | waiting (holds : r.holdsKv = false) (unfinished : r.finished = false)
      (inflight : r.inflightMiddleChunks = 0) (fill : FillOk r)
      (dropped : q = [] ∨ (r.isRetracted = true ∧ cfg.overlap = true))
  | chunked (chunk : Chunked r q r.extendEnd 0) (middle : r.extendEnd < r.fillIds.length)
  | running (run : Running cfg r q 0)

/-! What the phase of a request does not depend on. -/

section

variable {r : Req G} {extra written middle : ℕ} (toFinish : Option FinishReason)
  (grammar : Option G) (pending : Option Pending)

theorem Running.keep (h : Running cfg r q extra) :
    Running cfg { r with toFinish := toFinish, grammar := grammar, pending := pending } q extra := by
  obtain ⟨mids, rest, hq, hmids, hchunks, ha⟩ := h.aligned
  exact { h with aligned := ⟨mids, rest, hq, hmids, hchunks, { ha with }⟩ }

theorem Chunked.keep (h : Chunked r q written middle) :
    Chunked { r with toFinish := toFinish, grammar := grammar, pending := pending } q written middle :=
  { h with }

theorem Phase.keep (h : Phase cfg r q) :
    Phase cfg { r with toFinish := toFinish, grammar := grammar, pending := pending } q := by
  cases h with
  | done holds finished sync => exact .done holds finished sync
  | waiting holds unfinished inflight fill dropped => exact .waiting holds unfinished inflight fill dropped
  | chunked chunk middle => exact .chunked (chunk.keep _ _ _) middle
  | running run => exact .running (run.keep _ _ _)

end

end SparkInfer.Commit
