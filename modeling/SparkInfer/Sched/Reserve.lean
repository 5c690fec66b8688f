import SparkInfer.Lib.Run
import SparkInfer.Alloc.Capacity
import SparkInfer.Sched.Acceptance
import SparkInfer.Sched.DecodeCheck

/-!
# The reservation of a speculative decode step

`eagle_prepare_for_decode` lengthens the row of every running request to its committed
length plus twice the length of one step, rounded up to whole pages.  The factor two
covers the accepted run the host has not yet seen.  The width of a row is set once, when
the pools are built, by constructors that do not all count the reservation.
-/

namespace SparkInfer.Sched.Spec

open Lib Alloc Alloc.Paged Radix List

inductive PoolKind
  | separate | unifiedMamba | unifiedSwa | unifiedMambaSwa

structure Settings where
  contextLen : ℕ
  /-- `get_alloc_page_size`, also the page size of the allocator. -/
  pageSize : ℕ
  spec : SpecParams
  pools : PoolKind
  page_pos : 0 < pageSize

namespace Settings

variable (cfg : Settings)

def reserve : ℕ := cfg.spec.allocReservePerDecode cfg.pageSize

def getReqToTokenExtraContextLen : ℕ :=
  let extra := 4 + cfg.spec.maxDraftTokens
  if 1 < cfg.pageSize then max extra (cfg.reserve + cfg.pageSize - 1) else extra

/-- `extra_max_context_len` of the four constructors. -/
def extraMaxContextLen : ℕ :=
  match cfg.pools with
  | .separate => cfg.getReqToTokenExtraContextLen
  | .unifiedMamba | .unifiedSwa | .unifiedMambaSwa => 4 + cfg.spec.numDraftTokens

def rowWidth : ℕ := cfg.contextLen + cfg.extraMaxContextLen

end Settings

/-- The lengths of a running request. -/
structure Lens where
  originLen : ℕ
  outputLen : ℕ
  maxNewTokens : ℕ
  kvCommittedLen : ℕ
  kvAllocatedLen : ℕ
  /-- The length on the device. -/
  seqLen : ℕ
  /-- The accepted lengths of launched steps whose results the host has not processed. -/
  inFlight : List ℕ
  deriving DecidableEq

namespace Lens

/-- The allocated length `page_aligned_decode_alloc_lens` computes. -/
def next (cfg : Settings) (r : Lens) : ℕ :=
  max r.kvAllocatedLen (ceilAlign (r.kvCommittedLen + cfg.reserve) cfg.pageSize)

def start (w : WaitingReq) : Lens :=
  ⟨w.originLen, w.outputLen, w.maxNewTokens, w.fillLen, w.fillLen, w.fillLen, []⟩

def launch (cfg : Settings) (r : Lens) (accepted : ℕ) : Lens :=
  { r with
    kvAllocatedLen := r.next cfg
    seqLen := r.seqLen + accepted
    inFlight := r.inFlight ++ [accepted] }

/-- `_resolve_spec_v2_tokens` for the oldest result. -/
def settle (r : Lens) : Lens :=
  match r.inFlight with
  | [] => r
  | n :: rest =>
    { r with kvCommittedLen := r.kvCommittedLen + n, outputLen := r.outputLen + n, inFlight := rest }

end Lens

inductive Op
  /-- The prefill of a request, also after a retraction. -/
  | prefill (w : WaitingReq)
  /-- The token of the prefill reaches the host. -/
  | sampled (i : ℕ)
  /-- A verify step of the running batch, with the length each request accepts. -/
  | launch (accept : ℕ → ℕ)
  | process (i : ℕ)
  /-- The request is finished or retracted; its results are not settled. -/
  | drop (i : ℕ)

/-- A step is launched for unfinished requests, with at most the result of the launch
before it outstanding; for trees on pages, after the assertion on the row width. -/
def Launches (cfg : Settings) (batch : List Lens) (accept : ℕ → ℕ) : Prop :=
  (∀ r ∈ batch, r.outputLen < r.maxNewTokens ∧ r.inFlight.length ≤ 1 ∧
      (1 < cfg.pageSize → 1 < cfg.spec.eagleTopk → r.next cfg ≤ cfg.rowWidth)) ∧
    ∀ i < batch.length, accept i ≤ cfg.spec.numDraftTokens

instance (cfg : Settings) (batch : List Lens) (accept : ℕ → ℕ) :
    Decidable (Launches cfg batch accept) :=
  inferInstanceAs (Decidable (_ ∧ _))

def step (cfg : Settings) (batch : List Lens) : Op → Option (List Lens)
  | .prefill w => some (batch ++ [.start w])
  | .sampled i => some (batch.modify i fun r => { r with outputLen := r.outputLen + 1 })
  | .launch accept =>
    if Launches cfg batch accept then some (batch.mapIdx fun i r => r.launch cfg (accept i)) else none
  | .process i => some (batch.modify i Lens.settle)
  | .drop i => some (batch.eraseIdx i)

variable {cfg : Settings} {batch batch' : List Lens} {ops : List Op} {P : Lens → Prop}

/-! ## What every step keeps of every request -/

theorem forall_modify {f : Lens → Lens} (hf : ∀ r, P r → P (f r))
    (h : ∀ r ∈ batch, P r) (i : ℕ) : ∀ r ∈ batch.modify i f, P r := by
  intro r hr
  obtain ⟨j, hj⟩ := mem_iff_getElem?.mp hr
  rw [getElem?_modify] at hj
  obtain ⟨q, hq, heq⟩ := Option.map_eq_some_iff.mp hj
  have hkeep := h q (mem_of_getElem? hq)
  rw [← heq]
  split_ifs
  · exact hf q hkeep
  · exact hkeep

structure Kept (cfg : Settings) (P : Lens → Prop) : Prop where
  sampled : ∀ r, P r → P { r with outputLen := r.outputLen + 1 }
  launched : ∀ r n, r.outputLen < r.maxNewTokens → n ≤ cfg.spec.numDraftTokens → P r →
    P (r.launch cfg n)
  settled : ∀ r, P r → P r.settle

theorem Kept.stepped (hk : Kept cfg P) {op : Op}
    (hstart : ∀ w, op = .prefill w → P (.start w)) (h : ∀ r ∈ batch, P r)
    (hstep : step cfg batch op = some batch') : ∀ r ∈ batch', P r := by
  cases op with
  | prefill w =>
    cases hstep
    intro r hr
    rcases mem_append.mp hr with hr | hr
    · exact h r hr
    · exact mem_singleton.mp hr ▸ hstart w rfl
  | sampled i =>
    cases hstep
    exact forall_modify hk.sampled h i
  | launch accept =>
    obtain ⟨⟨hunfinished, haccept⟩, ⟨⟩⟩ := Option.ite_none_right_eq_some.mp hstep
    intro r hr
    obtain ⟨i, hi, rfl⟩ := mem_mapIdx.mp hr
    have hmem : batch[i] ∈ batch := getElem_mem hi
    exact hk.launched _ _ (hunfinished _ hmem).1 (haccept i hi) (h _ hmem)
  | process i =>
    cases hstep
    exact forall_modify hk.settled h i
  | drop i =>
    cases hstep
    exact fun r hr => h r (mem_of_mem_eraseIdx hr)

theorem Kept.run (hk : Kept cfg P) {G : List Lens → Op → Prop}
    (hstart : ∀ batch w, G batch (.prefill w) → P (.start w)) (hguard : Guarded (step cfg) G [] ops)
    (hrun : runFrom (step cfg) [] ops = some batch) : ∀ r ∈ batch, P r :=
  runFrom_invariant
    (fun batch _ _ h hg hstep => hk.stepped (fun w hw => hstart batch w (hw ▸ hg)) h hstep)
    (by simp) hguard hrun

/-! ## The reservation covers the step, and its estimate is exact -/

structure Tracked (cfg : Settings) (r : Lens) : Prop where
  seqLen : r.seqLen = r.kvCommittedLen + r.inFlight.sum
  accepted : ∀ n ∈ r.inFlight, n ≤ cfg.spec.numDraftTokens

theorem kept_tracked : Kept cfg (Tracked cfg) where
  sampled r hr := ⟨hr.seqLen, hr.accepted⟩
  launched r n _ hn hr := by
    refine ⟨?_, fun m hm => ?_⟩
    · rw [Lens.launch, sum_append, sum_singleton, hr.seqLen, add_assoc]
    · rcases mem_append.mp hm with hm | hm
      · exact hr.accepted m hm
      · exact mem_singleton.mp hm ▸ hn
  settled r hr := by
    unfold Lens.settle
    split
    · exact hr
    rename_i n rest hflight
    have hseq := hr.seqLen
    have hacc := hr.accepted
    rw [hflight] at hseq hacc
    exact ⟨by rw [hseq, sum_cons, add_assoc], (forall_mem_cons.mp hacc).2⟩

theorem le_allocLen (cfg : Settings) :
    max (cfg.spec.numSteps * cfg.spec.eagleTopk) cfg.spec.numDraftTokens ≤
      cfg.spec.allocLenPerDecode cfg.pageSize := by
  have hdraft := cfg.spec.draft_le
  unfold SpecParams.allocLenPerDecode
  split_ifs
  · exact max_le_max_left _ hdraft
  refine max_le_max (Nat.mul_le_mul_right _ ?_) hdraft
  have hceil : cfg.pageSize - 1 + cfg.spec.numSteps ≤ _ := le_ceilDiv_mul cfg.page_pos
  rw [ceilDiv] at hceil
  omega

/-- What the host has not seen of a run is at most one accepted length. -/
theorem Tracked.covered {r : Lens} (h : Tracked cfg r) (hlag : r.inFlight.length ≤ 1) :
    r.seqLen + max (cfg.spec.numSteps * cfg.spec.eagleTopk) cfg.spec.numDraftTokens ≤ r.next cfg := by
  have hlen := le_allocLen cfg
  have hnext : r.kvCommittedLen + cfg.reserve ≤ r.next cfg :=
    (le_ceilDiv_mul cfg.page_pos).trans (le_max_right _ _)
  have hseq := h.seqLen
  have hsum : r.inFlight.sum ≤ cfg.spec.numDraftTokens := by
    have hle := sum_le_card_nsmul r.inFlight _ h.accepted
    exact hle.trans (by simpa using Nat.mul_le_mul_right cfg.spec.numDraftTokens hlag)
  unfold Settings.reserve SpecParams.allocReservePerDecode at hnext
  omega

theorem availableSize_takePages {a : Paged} {b : Bool} {n : ℕ} {α : Type} {out x : α} {a' : Paged}
    (h : takePages (if b then a.mergeAndSortFree else a) n out = (some x, a')) :
    a.availableSize = a'.availableSize + n * a.pageSize := by
  have hcard := congrArg Multiset.card (@atHand_merge_if a b)
  have hpage := @pageSize_merge a b
  generalize (if b then a.mergeAndSortFree else a) = a₁ at *
  unfold takePages at h
  split_ifs at h
  · cases (Prod.mk.inj h).1
  obtain ⟨-, rfl⟩ := Prod.mk.inj h
  simp only [atHand, Multiset.card_add, Multiset.coe_card] at hcard
  simp only [availableSize, length_drop, hpage, ← Nat.add_mul]
  congr 1
  omega

section Estimate

variable {H B : Type} [DecidableEq B] {dcfg : DecodeConfig} {hf : HashFns H B} {s : SpecParams}
variable {c c' c₁ : RadixCache H B} {n : ℕ} {reqs reqs' : List DecodeReq}

theorem grows_evictFromTreeCache (h : evictFromTreeCache dcfg hf c n = .ok c') :
    Grows c.allocator c'.allocator := by
  unfold evictFromTreeCache at h
  split_ifs at h
  · obtain ⟨⟨c₁, e⟩, hevict, ⟨⟩⟩ := bind_ok h
    exact grows_evict hevict
  · cases h
    exact .refl _

/-- The tree that is left when the step allocates. -/
def Evicted (dcfg : DecodeConfig) (hf : HashFns H B) (c c₁ : RadixCache H B) : Prop :=
  c₁ = c ∨ ∃ n, evictFromTreeCache dcfg hf c n = .ok c₁

theorem allocForSpecDecode_takes (hpos : 0 < c.allocator.pageSize) (hspec : dcfg.spec = some s)
    (heagle : s.isDflash = false) (h : allocForSpecDecode dcfg hf s c reqs = .ok (c', reqs')) :
    ∃ c₁, Evicted dcfg hf c c₁ ∧ c₁.allocator.availableSize =
      c'.allocator.availableSize + newTokensRequiredNextDecode dcfg c.allocator.pageSize reqs := by
  have hres : s.prepareReserve c.allocator.pageSize = s.allocReservePerDecode c.allocator.pageSize := by
    simp [SpecParams.prepareReserve, heagle]
  simp only [newTokensRequiredNextDecode, hspec, ← pages_nextKvLen hpos, ← hres]
  unfold allocForSpecDecode at h
  dsimp only at h
  generalize s.prepareReserve c.allocator.pageSize = reserve at *
  split_ifs at h with hnone hone
  · cases h
    refine ⟨c, .inl rfl, ?_⟩
    have hzero := List.sum_eq_zero_iff.mp hnone
    have hpages : (reqs.map fun r => numNewPages c.allocator.pageSize r.req.row.length
        (nextKvLen reserve c.allocator.pageSize r) * c.allocator.pageSize).sum = 0 := by
      refine List.sum_eq_zero fun x hx => ?_
      obtain ⟨r, hr, rfl⟩ := mem_map.mp hx
      have hle := Nat.sub_eq_zero_iff_le.mp (hzero _ (mem_map_of_mem hr))
      rw [numNewPages, Nat.sub_eq_zero_of_le (ceilDiv_mono hle), Nat.zero_mul]
    rw [hpages, Nat.add_zero]
  · obtain ⟨⟨c₂, out⟩, halloc, ⟨⟩⟩ := bind_ok h
    obtain ⟨c₁, hevict, halloc⟩ := bind_ok halloc
    refine ⟨c₁, .inr ⟨_, hevict⟩, ?_⟩
    have hpage := (grows_evictFromTreeCache hevict).pageSize.trans hone
    split at halloc
    · cases halloc
    rename_i out a halloc'
    cases halloc
    have htake := availableSize_takePages halloc'
    simp only [hpage, hone, Nat.div_one, numNewPages_one, Nat.mul_one] at htake ⊢
    exact htake
  · obtain ⟨c₁, hevict, halloc⟩ := bind_ok h
    refine ⟨c₁, .inr ⟨_, hevict⟩, ?_⟩
    have hpage := (grows_evictFromTreeCache hevict).pageSize
    split at halloc
    · cases halloc
    rename_i outs a halloc'
    cases halloc
    have htake := availableSize_takePages halloc'
    rw [pageSize_merge, hpage, map_map, ← List.sum_map_mul_right] at htake
    exact htake

end Estimate

/-- Whenever a step is launched, with the results of the step before it processed or not,
every row holds what the step may write.  The pages an allocation takes are those foreseen. -/
theorem reservation_covers_the_step {H B : Type} [DecidableEq B]
    (hrun : runFrom (step cfg) [] ops = some batch) {accept : ℕ → ℕ}
    (hstep : step cfg batch (.launch accept) = some batch') :
    (∀ (i : ℕ) (r : Lens), batch[i]? = some r → ∃ r', batch'[i]? = some r' ∧ r.seqLen +
      max (cfg.spec.numSteps * cfg.spec.eagleTopk) cfg.spec.numDraftTokens ≤ r'.kvAllocatedLen) ∧
    ∀ (dcfg : DecodeConfig) (hf : HashFns H B) (c c' : RadixCache H B) (reqs reqs' : List DecodeReq),
      c.allocator.pageSize = cfg.pageSize → dcfg.spec = some cfg.spec → cfg.spec.isDflash = false →
      allocForSpecDecode dcfg hf cfg.spec c reqs = .ok (c', reqs') →
      ∃ c₁, Evicted dcfg hf c c₁ ∧ c₁.allocator.availableSize =
        c'.allocator.availableSize + newTokensRequiredNextDecode dcfg cfg.pageSize reqs := by
  have htracked := kept_tracked.run (fun _ w _ => ⟨rfl, nofun⟩)
    (guarded_of_forall (fun _ _ => trivial) [] ops) hrun
  obtain ⟨hlaunch, ⟨⟩⟩ := Option.ite_none_right_eq_some.mp hstep
  refine ⟨fun i r hr => ⟨_, by rw [getElem?_mapIdx, hr]; rfl, ?_⟩,
    fun dcfg hf c c' reqs reqs' hpage hspec heagle halloc => ?_⟩
  · have hmem := mem_of_getElem? hr
    exact (htracked r hmem).covered (hlaunch.1 r hmem).2.1
  · rw [← hpage]
    exact allocForSpecDecode_takes (hpage ▸ cfg.page_pos) hspec heagle halloc

/-- Chains of three drafts on pages of 64 slots, in the pools of a sliding-window model. -/
def chains (pools : PoolKind) : Settings where
  contextLen := 2048
  pageSize := 64
  spec := ⟨3, 1, 4, 4, false, false, le_rfl⟩
  pools := pools
  page_pos := PrefillAdder.pagedConfig.cache.pageSize_pos

def promptOf (len maxNewTokens : ℕ) : WaitingReq := ⟨len, 0, 0, 0, maxNewTokens, false, by omega⟩

theorem reservation_covers_the_step_lagging : ∃ batch batch' r r',
    runFrom (step (chains .unifiedSwa)) [] [.prefill (promptOf 60 9), .launch fun _ => 4] = some batch ∧
    step (chains .unifiedSwa) batch (.launch fun _ => 4) = some batch' ∧ batch[0]? = some r ∧
    batch'[0]? = some r' ∧ r.kvCommittedLen = 60 ∧ r.seqLen = 64 ∧ r.seqLen + 4 ≤ r'.kvAllocatedLen := by
  have hrun : runFrom (step (chains .unifiedSwa)) [] [.prefill (promptOf 60 9), .launch fun _ => 4] =
      some [⟨60, 0, 9, 60, 128, 64, [4]⟩] := by decide
  have hstep : step (chains .unifiedSwa) [⟨60, 0, 9, 60, 128, 64, [4]⟩] (.launch fun _ => 4) =
      some [⟨60, 0, 9, 60, 128, 68, [4, 4]⟩] := by decide
  obtain ⟨r', hr', hle⟩ := (@reservation_covers_the_step _ _ _ _ Unit Unit _ hrun _ hstep).1 0 _ rfl
  exact ⟨_, _, _, r', hrun, hstep, rfl, hr', rfl, rfl, hle⟩

/-! ## The reservation and the width of the row -/

/-- A prefill is of a request that was accepted. -/
def AcceptedPrefill (adder : AdderConfig) (limits : ServerLimits) (_ : List Lens) : Op → Prop
  | .prefill w => ∃ inputLen requested, Accepted adder limits inputLen requested w
  | _ => True

/-- The separate pools count the reservation if there are pages; otherwise the longest
unfinished request has to fit. -/
def RowHolds (cfg : Settings) : Prop :=
  cfg.pools = .separate ∧ 1 < cfg.pageSize ∨
    ceilAlign (cfg.contextLen - 3 + cfg.reserve) cfg.pageSize ≤ cfg.rowWidth

structure InRow (cfg : Settings) (r : Lens) : Prop where
  committed : r.kvCommittedLen ≤ r.originLen + r.outputLen
  limit : r.maxNewTokens = 0 ∨ r.originLen + r.maxNewTokens + 2 ≤ cfg.contextLen ∧
    r.kvAllocatedLen ≤ cfg.rowWidth

theorem InRow.next_le {r : Lens} (h : InRow cfg r) (hholds : RowHolds cfg)
    (hunfinished : r.outputLen < r.maxNewTokens) : r.next cfg ≤ cfg.rowWidth := by
  have hcommitted := h.committed
  obtain ⟨hlen, halloc⟩ := h.limit.resolve_left (by omega)
  refine max_le halloc ?_
  rcases hholds with ⟨hsep, hpage⟩ | hfits
  · have hlt : ceilAlign (r.kvCommittedLen + cfg.reserve) cfg.pageSize <
        r.kvCommittedLen + cfg.reserve + cfg.pageSize := ceilDiv_mul_lt cfg.page_pos
    have hextra : cfg.reserve + cfg.pageSize - 1 ≤ cfg.extraMaxContextLen := by
      simp only [Settings.extraMaxContextLen, hsep, Settings.getReqToTokenExtraContextLen, if_pos hpage]
      exact le_max_right _ _
    unfold Settings.rowWidth
    omega
  · exact (Nat.mul_le_mul_right _ (ceilDiv_mono (by omega))).trans hfits

theorem kept_inRow (hholds : RowHolds cfg) : Kept cfg (InRow cfg) where
  sampled r hr := ⟨hr.committed.trans (by simp), hr.limit⟩
  launched r n hunfinished _ hr :=
    ⟨hr.committed, hr.limit.imp_right fun hlimit => ⟨hlimit.1, hr.next_le hholds hunfinished⟩⟩
  settled r hr := by
    have hcommitted := hr.committed
    unfold Lens.settle
    split
    · exact hr
    · exact ⟨by dsimp only; omega, hr.limit⟩

def limits : ServerLimits := ⟨2048, 100000, none, false⟩

theorem accepted_nearFull : Accepted .small limits 2041 (some 5) (promptOf 2041 5) :=
  ⟨rfl, by decide +kernel, by decide⟩

end SparkInfer.Sched.Spec
