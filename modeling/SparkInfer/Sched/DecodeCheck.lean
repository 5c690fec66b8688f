import SparkInfer.Sched.Decode
import SparkInfer.Radix.Ownership

/-!
# A passed check is enough for the decode step

Eviction and retraction only give pages back, so what the check found available
is still there when the step allocates, and the pages of the step are at most
the pages that were checked.
-/

namespace SparkInfer.Sched

open Lib Alloc Alloc.Paged Radix List RadixCache

variable {H B : Type} [DecidableEq B] {cfg : DecodeConfig} {hf : HashFns H B}
variable {held others : List NodeId} {reqs : List DecodeReq} {r : DecodeReq}
variable {k : Nat}
variable {tie : List NodeId → Nat} {c c' : RadixCache H B} {a : Paged} {n : Nat} {s : SpecParams}

section Evict

variable {ccfg : Config} {e : Nat}

theorem grows_evictLoop (fuel : Nat) {heap : List (List Int × NodeId)} {evicted : Nat}
    (h : evictLoop ccfg hf tie n fuel c heap evicted = .ok (c', e)) :
    Grows c.allocator c'.allocator := by
  induction fuel generalizing c heap evicted with
  | zero => cases h
  | succ fuel ih =>
    rw [evictLoop] at h
    split at h
    · cases h
      exact .refl _
    split at h
    · cases h
      exact .refl _
    · obtain ⟨tree, -, h⟩ := bind_ok h
      obtain ⟨events, -, h⟩ := bind_ok h
      exact (grows_freeSegment _ _ _).trans (ih h)

theorem grows_evict (h : c.evict ccfg hf tie n = .ok (c', e)) : Grows c.allocator c'.allocator := by
  unfold evict at h
  split at h
  · cases h
    exact .refl _
  · exact grows_evictLoop _ h

end Evict

/-- The tree is sound, the locks `held` are out, and the allocator serves what it
counts, in pages of `k` tokens. -/
structure Ready (cfg : DecodeConfig) (hf : HashFns H B) (k : Nat) (c : RadixCache H B)
    (held : List NodeId) : Prop where
  tree : ∃ nodes, Inv cfg.cache hf c nodes held ∧
    (cfg.cache.disable = true → nodes = {c.tree.rootNode})
  direct : c.allocator.Direct
  page : c.allocator.pageSize = k
  pos : 0 < k

/-- What `check_decode_mem` tests after the eviction. -/
abbrev Passes (cfg : DecodeConfig) (c : RadixCache H B) (reqs : List DecodeReq) : Prop :=
  newTokensRequiredNextDecode cfg c.allocator.pageSize reqs ≤ c.allocator.availableSize

section

variable (h : Ready cfg hf k c held)
include h

omit [DecidableEq B] in
theorem Ready.page_pos : 0 < c.allocator.pageSize := h.page ▸ h.pos

omit [DecidableEq B] in
theorem Ready.of_alloc (hd : a.Direct)
    (hk : a.pageSize = c.allocator.pageSize) : Ready cfg hf k { c with allocator := a } held := by
  obtain ⟨nodes, hinv, hdis⟩ := h.tree
  exact ⟨⟨nodes, hinv.of_allocator a, hdis⟩, hd, hk.trans h.page, h.pos⟩

omit [DecidableEq B] in
theorem Ready.of_allocator (hg : Grows c.allocator a) :
    Ready cfg hf k { c with allocator := a } held :=
  h.of_alloc (hg.direct h.direct) hg.pageSize

theorem Ready.evict (n : Nat) :
    ∃ c', evictFromTreeCache cfg hf c n = .ok c' ∧ Ready cfg hf k c' held ∧
      Grows c.allocator c'.allocator := by
  obtain ⟨nodes, hinv, hdis⟩ := h.tree
  unfold evictFromTreeCache
  split
  · cases hen : cfg.cache.disable with
    | true => exact ⟨c, by simp [RadixCache.evict, hen], h, .refl _⟩
    | false =>
      obtain ⟨c', nodes', xs, k, hrun, hdel, -⟩ := evict_spec hinv hen cfg.tie
        (n - c.allocator.availableSize)
      have hg := grows_evict hrun
      exact ⟨c', by simp [hrun], ⟨⟨nodes', hdel.inv hinv, by simp [hen]⟩,
        hg.direct h.direct, hg.pageSize.trans h.page, h.pos⟩, hg⟩
  · exact ⟨c, rfl, h, .refl _⟩

theorem Ready.check (reqs : List DecodeReq) :
    ∃ c' passed, checkDecodeMem cfg hf c reqs = .ok (c', passed) ∧ Ready cfg hf k c' held ∧
      (passed = true ↔ Passes cfg c' reqs) := by
  obtain ⟨c', hrun, hready, hg⟩ :=
    h.evict (newTokensRequiredNextDecode cfg c.allocator.pageSize reqs)
  refine ⟨c', _, by simp only [checkDecodeMem, hrun]; rfl, hready, ?_⟩
  rw [Passes, hg.pageSize]
  exact decide_eq_true_iff

end

theorem checkDecodeMem_of_passes (h : Passes cfg c reqs) :
    checkDecodeMem cfg hf c reqs = .ok (c, true) := by
  simp [checkDecodeMem, evictFromTreeCache, if_neg (not_lt.mpr h), decide_eq_true h]

section Pages

theorem SpecParams.prepareReserve_le (s : SpecParams) (k : Nat) :
    s.prepareReserve k ≤ s.allocReservePerDecode k := by
  have hdraft := s.draft_le
  unfold prepareReserve
  split
  · simp only [allocReservePerDecode, allocLenPerDecode]
    split <;> omega
  · exact le_rfl

/-- Rounding the reservation up or the estimate up gives the same pages. -/
theorem pages_nextKvLen (hk : 0 < k) (reserve : Nat) (r : DecodeReq) :
    numNewPages k r.req.row.length (nextKvLen reserve k r) * k =
      ceilAlign (r.req.row.length + (r.kvCommittedLen + reserve - r.req.row.length)) k -
        ceilAlign r.req.row.length k := by
  have hround : (r.kvCommittedLen + reserve + k - 1) / k = ceilDiv (r.kvCommittedLen + reserve) k :=
    rfl
  unfold numNewPages nextKvLen
  rw [Nat.sub_mul, hround]
  congr 2
  rcases le_total (ceilDiv (r.kvCommittedLen + reserve) k * k) r.req.row.length with hle | hle
  · have hlen : r.kvCommittedLen + reserve ≤ r.req.row.length := (le_ceilDiv_mul hk).trans hle
    rw [Nat.max_eq_left hle, Nat.sub_eq_zero_of_le hlen, Nat.add_zero]
  rw [max_eq_right hle, ceilDiv_mul hk]
  rcases le_total (r.kvCommittedLen + reserve) r.req.row.length with hlen | hlen
  · -- the reservation ends inside the last page
    rw [Nat.sub_eq_zero_of_le hlen]
    exact (ceilDiv_mono hlen).antisymm ((ceilDiv_le_iff hk).mpr hle)
  · rw [Nat.add_sub_cancel' hlen]

theorem spec_pages_le (hk : 0 < k) (s : SpecParams) (r : DecodeReq) :
    numNewPages k r.req.row.length (nextKvLen (s.prepareReserve k) k r) * k ≤
      ceilAlign (r.req.row.length + (r.kvCommittedLen + s.allocReservePerDecode k -
        r.req.row.length)) k - ceilAlign r.req.row.length k := by
  have hres := s.prepareReserve_le k
  rw [pages_nextKvLen hk]
  exact Nat.sub_le_sub_right (Nat.mul_le_mul_right _ (ceilDiv_mono (by omega))) _

theorem numNewPages_one (p s : Nat) : numNewPages 1 p s = s - p := by
  simp [numNewPages, ceilDiv]

theorem sum_map_mul_le {f g : DecodeReq → Nat} (h : ∀ r, f r * k ≤ g r) (reqs : List DecodeReq) :
    (reqs.map f).sum * k ≤ (reqs.map g).sum := by
  induction reqs with
  | nil => simp
  | cons r reqs ih =>
    simp only [map_cons, sum_cons, add_mul]
    exact add_le_add (h r) ih

theorem tail_length_le : r.tail.length ≤ r.numMemberRows := by
  unfold DecodeReq.tail DecodeReq.numMemberRows
  cases r.beamGroup with
  | none => exact le_rfl
  | some g =>
    simp only [Option.map_some, BeamGroup.tail]
    split
    · exact Nat.zero_le _
    · exact le_rfl

theorem length_decodeRows :
    (decodeRows reqs).length = reqs.length + (reqs.map fun r => r.tail.length).sum := by
  simp [decodeRows]

theorem succ_mod_eq_one (hk : 1 < k) : (n + 1) % k = 1 ↔ n % k = 0 := by
  have hlt : n % k < k := Nat.mod_lt _ (by omega)
  rw [Nat.add_mod, Nat.mod_eq_of_lt hk]
  rcases Nat.lt_or_ge (n % k + 1) k with h | h
  · rw [Nat.mod_eq_of_lt h]
    omega
  · have heq : n % k + 1 = k := by omega
    rw [heq, Nat.mod_self]
    omega

theorem countP_decodeRows (hk : 1 < k) (htail : ∀ r ∈ reqs, r.tail = []) :
    (decodeRows reqs).countP (fun row => row.1 % k = 1) =
      reqs.countP fun r => r.kvCommittedLen % k = 0 := by
  have hnil : reqs.flatMap (fun r => r.tail.map fun row =>
      (r.kvCommittedLen + 1, lastLoc row r.kvCommittedLen)) = [] := by
    apply flatMap_eq_nil_iff.mpr
    intro r hr
    rw [htail r hr, map_nil]
  rw [decodeRows, hnil, append_nil, countP_map]
  apply countP_congr
  intro r _
  simp only [Function.comp_apply, decide_eq_true_eq]
  exact succ_mod_eq_one hk

end Pages

/-! ## The step -/

/-- Beam groups are accepted at page size one only. -/
def BeamAtOne (k : Nat) (reqs : List DecodeReq) : Prop :=
  ∀ r ∈ reqs, r.beamGroup.isSome = true → k = 1

section

variable (h : Ready cfg hf k c held)
include h

theorem Ready.allocTokenSlots (hn : n ≤ c.allocator.availableSize) :
    ∃ c' out, allocTokenSlots cfg hf c n = .ok (c', out) ∧ Ready cfg hf k c' held := by
  obtain ⟨c₁, hrun, hready, hg⟩ := h.evict n
  obtain ⟨out, a, halloc, hd, hk⟩ :=
    alloc_serves hready.direct hready.page_pos (hn.trans hg.available)
  simp only [Sched.allocTokenSlots, hrun, ok_bind, halloc]
  exact ⟨_, _, rfl, hready.of_alloc hd hk⟩

theorem Ready.allocForDecode (hspec : cfg.spec = none) (hbeam : BeamAtOne k reqs)
    (hpass : Passes cfg c reqs) :
    ∃ c' batch, allocForDecode cfg hf c reqs = .ok (c', batch) ∧ Ready cfg hf k c' held := by
  simp only [Passes, newTokensRequiredNextDecode, hspec] at hpass
  unfold Sched.allocForDecode
  by_cases hone : c.allocator.pageSize = 1
  · have hrows : (decodeRows reqs).length ≤ c.allocator.availableSize := by
      have htail : (reqs.map fun r => r.tail.length).sum ≤ (reqs.map DecodeReq.numMemberRows).sum :=
        (Nat.mul_one _).ge.trans
          (sum_map_mul_le (fun r => (Nat.mul_one _).trans_le (tail_length_le)) reqs)
      have hall : reqs.countP (fun r => r.kvCommittedLen % c.allocator.pageSize = 0) = reqs.length := by
        rw [countP_eq_length]
        intro r _
        simp [hone, Nat.mod_one]
      rw [hall, hone, Nat.mul_one] at hpass
      rw [length_decodeRows]
      omega
    obtain ⟨c', out, hrun, hready⟩ := h.allocTokenSlots hrows
    simp only [if_pos hone, hrun, ok_bind, pure_ok]
    exact ⟨_, _, rfl, hready⟩
  · have hpos := h.page_pos
    have htail : ∀ r ∈ reqs, r.tail = [] := by
      intro r hr
      unfold DecodeReq.tail
      cases hg : r.beamGroup with
      | none => rfl
      | some g => exact absurd (h.page.trans (hbeam r hr (by rw [hg]; rfl))) hone
    obtain ⟨c₁, hrun, hready, hg⟩ := h.evict ((decodeRows reqs).length * c.allocator.pageSize)
    have hpages : (decodeRows reqs).countP (fun row => row.1 % c₁.allocator.pageSize = 1) *
        c₁.allocator.pageSize ≤ c₁.allocator.availableSize := by
      rw [hg.pageSize, countP_decodeRows (by omega) htail]
      exact (Nat.le_add_right _ _).trans (hpass.trans hg.available)
    obtain ⟨out, a, halloc, hd, hk⟩ := allocDecodeBatch_serves hready.direct hready.page_pos hpages
    simp only [if_neg hone, hrun, ok_bind, halloc]
    exact ⟨_, _, rfl, hready.of_alloc hd hk⟩

theorem Ready.allocForSpecDecode (hspec : cfg.spec = some s) (hpass : Passes cfg c reqs) :
    ∃ c' batch, allocForSpecDecode cfg hf s c reqs = .ok (c', batch) ∧ Ready cfg hf k c' held := by
  simp only [Passes, newTokensRequiredNextDecode, hspec] at hpass
  have hpages := (sum_map_mul_le (spec_pages_le h.page_pos s) reqs).trans hpass
  unfold Sched.allocForSpecDecode
  simp only
  split
  · exact ⟨_, _, rfl, h⟩
  split_ifs with hone
  · rw [hone] at hpages ⊢
    simp only [numNewPages_one, mul_one] at hpages
    obtain ⟨c', out, hrun, hready⟩ := h.allocTokenSlots hpages
    simp only [hrun, ok_bind, pure_ok]
    exact ⟨_, _, rfl, hready⟩
  obtain ⟨c₁, hrun, hready, hg⟩ := h.evict ((reqs.map fun r => nextKvLen
    (s.prepareReserve c.allocator.pageSize) c.allocator.pageSize r - r.req.row.length).sum +
      (reqs.map fun r => (⟨r.req.row.length, nextKvLen
        (s.prepareReserve c.allocator.pageSize) c.allocator.pageSize r,
        lastLoc r.req.row r.req.row.length⟩ : RowEnd)).length * c.allocator.pageSize)
  have hserve : ((reqs.map fun r => (⟨r.req.row.length, nextKvLen
      (s.prepareReserve c.allocator.pageSize) c.allocator.pageSize r,
      lastLoc r.req.row r.req.row.length⟩ : RowEnd)).map fun r =>
        numNewPages c₁.allocator.pageSize r.prefixLen r.seqLen).sum * c₁.allocator.pageSize ≤
      c₁.allocator.availableSize := by
    rw [hg.pageSize, map_map]
    exact hpages.trans hg.available
  obtain ⟨out, a, halloc, hd, hk⟩ := allocExtendBatch_serves hready.direct hready.page_pos hserve
  simp only [hrun, ok_bind, halloc]
  exact ⟨_, _, rfl, hready.of_alloc hd hk⟩

theorem Ready.prepare (hbeam : BeamAtOne k reqs) (hpass : Passes cfg c reqs) :
    ∃ c' batch, prepareForDecode cfg hf c reqs = .ok (c', batch) ∧ Ready cfg hf k c' held := by
  unfold prepareForDecode
  cases hspec : cfg.spec with
  | none => exact h.allocForDecode hspec hbeam hpass
  | some s => exact h.allocForSpecDecode hspec hpass

end

/-! ## Retraction -/

/-- Without speculative decoding a row holds the committed tokens and nothing more. -/
def Synced (cfg : DecodeConfig) (r : DecodeReq) : Prop :=
  cfg.spec = none → r.kvCommittedLen = r.req.row.length

omit [DecidableEq B] in
theorem Ready.unlock {n : NodeId} (h : Ready cfg hf k c (n :: held)) :
    ∃ c' d, c.decLockRef cfg.cache n = .ok (c', d) ∧ Ready cfg hf k c' held ∧
      c'.allocator = c.allocator := by
  obtain ⟨nodes, hinv, hdis⟩ := h.tree
  cases hen : cfg.cache.disable with
  | true =>
    refine ⟨c, 0, by simp [decLockRef, hen], ⟨⟨nodes, { hinv with locked := ⟨?_, ?_⟩ }, hdis⟩,
      h.direct, h.page, h.pos⟩, rfl⟩
    · exact (forall_mem_cons.mp hinv.locked.held_mem).2
    · -- only the root, which carries no lock
      intro x hx hne
      rw [hdis hen] at hx
      exact absurd (mem_singleton.mp hx) hne
  | false =>
    obtain ⟨t, d, hrun, hskel, -, hinv'⟩ := decLockRef_spec hinv hen mem_cons_self
    rw [erase_cons_head] at hinv'
    exact ⟨_, d, hrun, { h with tree := ⟨nodes, hinv', by simp [hen]⟩ }, rfl⟩

theorem Ready.cacheFinishedReq (h : Ready cfg hf k c (r.req.lastNode :: held)) (n : Nat) :
    ∃ c', c.cacheFinishedReq cfg.cache hf r.req false n = .ok c' ∧ Ready cfg hf k c' held := by
  cases hen : cfg.cache.disable with
  | true =>
    obtain ⟨c₁, d, hdec, hready, -⟩ := h.unlock
    simp only [decLockRef, hen] at hdec
    obtain ⟨rfl, -⟩ := hdec
    simp only [RadixCache.cacheFinishedReq, hen]
    exact ⟨_, rfl, hready.of_allocator (grows_freeSegment _ _ _)⟩
  | false =>
    have hinsert : (if cfg.cache.disableFinishedInsert = true then false else false) = false := by
      split <;> rfl
    simp only [RadixCache.cacheFinishedReq, hen, hinsert, Bool.false_eq_true, if_false,
      RadixCache.insertFinished, ok_bind]
    obtain ⟨c₁, d, hdec, hready, -⟩ := (h.of_allocator (grows_freeSegments c.allocator _)).unlock
    rw [hdec]
    exact ⟨_, rfl, hready⟩

theorem grows_releaseOverallocated (a : Paged) (r : Req) (n : Nat) :
    Grows a (releaseOverallocated a r n) := by
  unfold releaseOverallocated
  generalize (if 1 < a.pageSize then ceilDiv n a.pageSize * a.pageSize else n) = start
  simp only
  split
  · exact grows_freeSegments _ _
  · exact .refl a

theorem Ready.releaseReq (h : Ready cfg hf k c (r.req.lastNode :: held)) (hsync : Synced cfg r)
    (remaining : Nat) : ∃ c', releaseReq cfg hf c r remaining = .ok c' ∧ Ready cfg hf k c' held := by
  obtain ⟨c₁, hfin, hready⟩ := h.cacheFinishedReq (effectiveKvCommittedLen cfg r)
  have hassert : ¬ (cfg.spec.isNone = true ∧ cfg.stripThinkingCache = false ∧
      effectiveKvCommittedLen cfg r ≠ r.req.row.length) := by
    rintro ⟨hspec, hstrip, hne⟩
    rw [effectiveKvCommittedLen, if_neg (by simp [hstrip])] at hne
    exact hne (hsync (Option.isNone_iff_eq_none.mp hspec))
  obtain ⟨c₂, hevict, hready₂, -⟩ :=
    (hready.of_allocator (grows_releaseOverallocated c₁.allocator r.req
      (effectiveKvCommittedLen cfg r))).evict (remaining * cfg.retractDecodeSteps)
  refine ⟨c₂, ?_, hready₂⟩
  simp only [Sched.releaseReq, releaseDecodeReq, hfin, ok_bind, if_neg hassert, pure,
    Except.pure, hevict]

omit [DecidableEq B] in
theorem Ready.freeMemberRows (h : Ready cfg hf k c held) (hsync : Synced cfg r) :
    Ready cfg hf k (freeMemberRows c r).1 held ∧ Synced cfg (freeMemberRows c r).2 ∧
      (freeMemberRows c r).2.req.lastNode = r.req.lastNode := by
  unfold Sched.freeMemberRows
  split
  · exact ⟨h, hsync, rfl⟩
  split
  · exact ⟨h, hsync, rfl⟩
  simp only
  split_ifs with hlt
  · refine ⟨h.of_allocator (grows_free _ _), fun _ => ?_, rfl⟩
    exact (length_take_of_le hlt.le).symm
  · exact ⟨h, hsync, rfl⟩

theorem Ready.retractOne (h : Ready cfg hf k c (r.req.lastNode :: held)) (hsync : Synced cfg r)
    (saved : DecodeReq → Bool) (remaining : Nat) (out : Retraction) :
    ∃ c' out', retractOne cfg hf saved c r remaining out = .ok (c', out') ∧ Ready cfg hf k c' held ∧
      (out'.retracted ++ out'.aborted).Perm (r :: (out.retracted ++ out.aborted)) := by
  unfold Sched.retractOne
  have haborted : (out.retracted ++ (out.aborted ++ [r])).Perm
      (r :: (out.retracted ++ out.aborted)) := by
    rw [← append_assoc]
    exact perm_append_singleton _ _
  split
  · obtain ⟨hready, hsync', hnode⟩ := h.freeMemberRows hsync
    rw [← hnode] at hready
    obtain ⟨c', hrun, hready'⟩ := hready.releaseReq hsync' remaining
    simp only [hrun, ok_bind, pure_ok]
    exact ⟨_, _, rfl, hready', haborted⟩
  · obtain ⟨c', hrun, hready'⟩ := h.releaseReq hsync remaining
    simp [hrun]
    split
    · refine ⟨_, _, rfl, hready', ?_⟩
      change (out.retracted ++ [r] ++ out.aborted).Perm _
      rw [append_assoc]
      exact perm_middle
    · exact ⟨_, _, rfl, hready', haborted⟩

def locksOf (l : List DecodeReq) (others : List NodeId) : List NodeId :=
  l.map (fun r => r.req.lastNode) ++ others

/-- What the loop leaves of the requests `l`: some are kept, and more than one only
after a passed check. -/
structure LoopEnd (cfg : DecodeConfig) (hf : HashFns H B) (k : Nat) (others : List NodeId)
    (l : List DecodeReq) (out : Retraction) (c : RadixCache H B) (out' : Retraction) : Prop where
  ready : Ready cfg hf k c (locksOf out'.kept.reverse others)
  kept : out'.kept ≠ []
  perm : (out'.kept ++ (out'.retracted ++ out'.aborted)).Perm (l ++ (out.retracted ++ out.aborted))
  passed : 1 < out'.kept.length →
    newTokensRequiredNextDecode cfg c.allocator.pageSize out'.kept ≤ c.allocator.availableSize

theorem Ready.test (h : Ready cfg hf k c held) (firstIter : Bool) (l : List DecodeReq) :
    ∃ c' passed, loopTest cfg hf firstIter c l = .ok (c', passed) ∧ Ready cfg hf k c' held ∧
      (passed = true → Passes cfg c' l) := by
  cases firstIter with
  | true => exact ⟨c, false, rfl, h, fun hc => by cases hc⟩
  | false =>
    obtain ⟨c', passed, hrun, hready, hiff⟩ := h.check l
    exact ⟨c', passed, hrun, hready, hiff.mp⟩

theorem retractLoop_end (saved : DecodeReq → Bool) (l : List DecodeReq) (firstIter : Bool)
    (out : Retraction) (hne : l ≠ []) (hsync : ∀ r ∈ l, Synced cfg r)
    (h : Ready cfg hf k c (locksOf l others)) :
    ∃ c' out', retractLoop cfg hf saved firstIter c l out = .ok (c', out') ∧
      LoopEnd cfg hf k others l out c' out' := by
  induction l generalizing c firstIter out with
  | nil => exact absurd rfl hne
  | cons r l ih =>
    cases l with
    | nil =>
      obtain ⟨c', passed, htest, hready, -⟩ := h.test firstIter [r]
      refine ⟨c', { out with kept := [r] }, ?_, hready, by simp, .refl _, fun hlt => ?_⟩
      · simp [retractLoop, htest]
      · exact absurd hlt (by simp)
    | cons next rest =>
      obtain ⟨c₁, passed, htest, hready, hpass⟩ := h.test firstIter (r :: next :: rest).reverse
      simp only [retractLoop, htest, bind, Except.bind]
      cases passed with
      | true =>
        refine ⟨c₁, { out with kept := (r :: next :: rest).reverse }, if_pos rfl, ?_, by simp, ?_,
          fun _ => hpass rfl⟩
        · rwa [reverse_reverse]
        · exact (reverse_perm _).append_right _
      | false =>
        obtain ⟨c₂, out₂, hone, hready₂, hperm⟩ :=
          hready.retractOne (hsync r mem_cons_self) saved (next :: rest).length out
        obtain ⟨c', out', hloop, hend⟩ := ih false out₂ (by simp)
          ((forall_mem_cons.mp hsync).2) hready₂
        refine ⟨c', out', ?_, hend.ready, hend.kept, ?_, hend.passed⟩
        · simp only [Bool.false_eq_true, if_false, hone, hloop]
        · refine hend.perm.trans ?_
          exact (hperm.append_left _).trans perm_middle

theorem perm_beamRetractionOrder (sorted : List DecodeReq) :
    (beamRetractionOrder sorted).Perm sorted := by
  unfold beamRetractionOrder
  split
  · exact filter_append_perm _ _
  · exact .refl _

omit [DecidableEq B] in
theorem Ready.perm (h : Ready cfg hf k c held) {held' : List NodeId} (hp : held.Perm held') :
    Ready cfg hf k c held' := by
  obtain ⟨nodes, hinv, hdis⟩ := h.tree
  exact ⟨⟨nodes, { hinv with locked := hinv.locked.perm hp }, hdis⟩, h.direct, h.page, h.pos⟩

theorem Ready.retractDecode (saved : DecodeReq → Bool) {sorted : List DecodeReq}
    (hsorted : sorted.Perm reqs) (hne : reqs ≠ []) (hsync : ∀ r ∈ reqs, Synced cfg r)
    (h : Ready cfg hf k c (locksOf reqs others)) :
    ∃ c' out, retractDecode cfg hf saved c sorted = .ok (c', out) ∧
      Ready cfg hf k c' (locksOf out.kept others) ∧
      (out.kept ++ (out.retracted ++ out.aborted)).Perm reqs ∧
      (out.kept = [] ∨ Passes cfg c' out.kept) := by
  have hperm : (beamRetractionOrder sorted).reverse.Perm reqs :=
    (reverse_perm _).trans ((perm_beamRetractionOrder sorted).trans hsorted)
  have hready := h.perm ((hperm.symm.map _).append_right others)
  obtain ⟨c₁, out₁, hloop, hend⟩ := retractLoop_end saved
    (beamRetractionOrder sorted).reverse true ⟨[], [], []⟩
    (fun hnil => hne (perm_nil.mp (hnil ▸ hperm).symm))
    (fun r hr => hsync r (hperm.mem_iff.mp hr)) hready
  have hsplit : (out₁.kept ++ (out₁.retracted ++ out₁.aborted)).Perm reqs := by
    refine hend.perm.trans ?_
    rwa [append_nil, append_nil]
  have hready₁ := hend.ready.perm (((reverse_perm _).map _).append_right others)
  simp only [Sched.retractDecode, hloop, bind, Except.bind, pure, Except.pure]
  split_ifs with hlen
  · exact ⟨c₁, out₁, rfl, hready₁, hsplit, .inr (hend.passed hlen)⟩
  obtain ⟨c₂, passed, hcheck, hready, hiff⟩ := hready₁.check out₁.kept
  simp only [hcheck]
  cases passed with
  | true => exact ⟨c₂, out₁, if_pos rfl, hready, hsplit, .inr (hiff.mp rfl)⟩
  | false =>
    -- one request is left, and it is aborted
    obtain ⟨last, hkept⟩ : ∃ last, out₁.kept = [last] := by
      apply length_eq_one_iff.mp
      have hpos := length_pos_of_ne_nil hend.kept
      omega
    rw [hkept] at hready
    have hmem : last ∈ reqs := hsplit.mem_iff.mp (by rw [hkept]; simp)
    obtain ⟨hready₂, hsync₂, hnode⟩ := hready.freeMemberRows (hsync last hmem)
    change Ready cfg hf k _ (last.req.lastNode :: others) at hready₂
    rw [← hnode] at hready₂
    obtain ⟨c₃, hrel, hready₃⟩ := hready₂.releaseReq hsync₂ 0
    simp only [hkept, reverse_singleton, Bool.false_eq_true, if_false, hrel]
    refine ⟨c₃, _, rfl, hready₃, ?_, .inl rfl⟩
    rw [hkept] at hsplit
    refine List.Perm.trans ?_ hsplit
    change (out₁.retracted ++ (out₁.aborted ++ [last])).Perm _
    rw [← append_assoc]
    exact perm_append_singleton _ _

/-! ## The running batch -/

def unfinished (reqs : List DecodeReq) : List DecodeReq := reqs.filter fun r => !r.finished

theorem Ready.makeRoom (h : Ready cfg hf k c (locksOf reqs others)) (hne : reqs ≠ [])
    (hsync : ∀ r ∈ reqs, Synced cfg r) {order : List DecodeReq → List DecodeReq}
    (horder : ∀ l, (order l).Perm l) (saved : DecodeReq → Bool) {retract : Bool}
    (hpass : retract = false → Passes cfg c reqs) :
    ∃ c' out, makeRoom cfg hf order saved retract c reqs = .ok (c', out) ∧
      Ready cfg hf k c' (locksOf out.kept others) ∧
      (out.kept ++ (out.retracted ++ out.aborted)).Perm reqs ∧
      (out.kept = [] ∨ Passes cfg c' out.kept) := by
  cases retract with
  | false => exact ⟨c, ⟨reqs, [], []⟩, rfl, h, by simp, .inr (hpass rfl)⟩
  | true => exact h.retractDecode saved (horder reqs) hne hsync

/-- A passed check is enough for the step; retraction ends with requests that pass it
or with none, and loses or duplicates no request; so a running batch is updated without
running out of memory, whatever the retraction policy and the backups do. -/
theorem running_batch_never_out_of_memory (all : List DecodeReq)
    (order : List DecodeReq → List DecodeReq) (horder : ∀ l, (order l).Perm l)
    (saved : DecodeReq → Bool) (testRetract : Bool)
    (h : Ready cfg hf k c (locksOf (unfinished all) others)) (hbeam : BeamAtOne k all)
    (hsync : ∀ r ∈ all, Synced cfg r) :
    (∀ kept ⊆ all, ∀ c', checkDecodeMem cfg hf c kept = .ok (c', true) →
      ∃ c'' batch, prepareForDecode cfg hf c' kept = .ok (c'', batch)) ∧
    (unfinished all ≠ [] → ∃ c' out,
      retractDecode cfg hf saved c (order (unfinished all)) = .ok (c', out) ∧
      (out.kept ++ (out.retracted ++ out.aborted)).Perm (unfinished all) ∧
      (out.kept = [] ∨ checkDecodeMem cfg hf c' out.kept = .ok (c', true))) ∧
    ∃ u, updateRunningBatch cfg hf order saved testRetract c all = .ok u ∧
      Ready cfg hf k u.cache (locksOf u.split.kept others) ∧
      (u.split.kept ++ (u.split.retracted ++ u.split.aborted)).Perm (unfinished all) := by
  have hsub : unfinished all ⊆ all := filter_subset_self _
  refine ⟨?_, ?_, ?_⟩
  · intro kept hkept c' hcheck
    obtain ⟨c₁, passed, hrun, hready, hiff⟩ := h.check kept
    cases hcheck.symm.trans hrun
    obtain ⟨c'', batch, hprep, -⟩ := hready.prepare (fun r hr => hbeam r (hkept hr)) (hiff.mp rfl)
    exact ⟨c'', batch, hprep⟩
  · intro hne
    obtain ⟨c', out, hrun, -, hperm, hkept⟩ := h.retractDecode saved (horder _) hne
      (fun r hr => hsync r (hsub hr))
    exact ⟨c', out, hrun, hperm, hkept.imp_right checkDecodeMem_of_passes⟩
  by_cases hempty : unfinished all = []
  · refine ⟨⟨c, ⟨[], [], []⟩, []⟩, ?_, ?_, ?_⟩
    · simp only [updateRunningBatch]
      exact if_pos hempty
    · rwa [hempty] at h
    · rw [hempty]
      exact .refl _
  obtain ⟨c₁, passed, hcheck, hready, hiff⟩ := h.check (unfinished all)
  have hpass : (!passed || testRetract) = false → Passes cfg c₁ (unfinished all) := by
    intro hkeep
    rw [Bool.or_eq_false_iff, Bool.not_eq_false'] at hkeep
    exact hiff.mp hkeep.1
  obtain ⟨c₂, out, hroom, hready₂, hperm, hkept⟩ := hready.makeRoom hempty
    (fun r hr => hsync r (hsub hr)) horder saved hpass
  simp only [unfinished] at hempty hcheck hroom
  simp only [updateRunningBatch, hcheck, ok_bind, hroom]
  split_ifs with hne
  · exact ⟨_, rfl, hready₂, hperm⟩
  obtain ⟨c₃, batch, hprep, hready₃⟩ := hready₂.prepare
    (fun r hr => hbeam r (hsub (hperm.mem_iff.mp (mem_append_left _ hr)))) (hkept.resolve_left hne)
  simp only [hprep]
  exact ⟨_, rfl, hready₃, hperm⟩

def DecodeConfig.small : DecodeConfig := ⟨.small, none, false, 20, fun _ => 0⟩

/-- Two requests of one token each and one free page. -/
def onePageLeft : RadixCache Unit Unit :=
  .init .small 0 { Paged.new 3 1 false with freePages := [3] }

def oneToken (slot : Int) : DecodeReq where
  req := ⟨[7], [], none, none, none, [slot], [], 0, onePageLeft.tree.rootNode⟩
  kvCommittedLen := 1
  reasoningTokens := 0
  beamGroup := none
  finished := false

theorem ready_onePageLeft :
    Ready .small HashFns.unit 1 onePageLeft (locksOf [oneToken 1, oneToken 2] []) := by
  have hinv : Inv Config.small .unit onePageLeft {onePageLeft.tree.rootNode} [] := reset_spec _
  refine ⟨⟨{onePageLeft.tree.rootNode}, { hinv with locked := ⟨?_, ?_⟩ }, fun _ => rfl⟩,
    fun _ => rfl, rfl, one_pos⟩
  · decide
  · exact fun n hn hne => absurd (mem_singleton.mp hn) hne

theorem running_batch_never_out_of_memory_tight :
    okAnd (checkDecodeMem .small HashFns.unit onePageLeft [oneToken 1, oneToken 2]) (fun x => !x.2) ∧
    ∃ u, updateRunningBatch .small HashFns.unit id (fun _ => true) false onePageLeft
        [oneToken 1, oneToken 2] = .ok u ∧
      (u.split.kept ++ (u.split.retracted ++ u.split.aborted)).Perm [oneToken 1, oneToken 2] := by
  refine ⟨by decide +kernel, ?_⟩
  have hsync : ∀ r ∈ [oneToken 1, oneToken 2], Synced .small r := by
    intro r hr _
    revert r
    decide
  obtain ⟨-, -, u, hrun, -, hperm⟩ := running_batch_never_out_of_memory [oneToken 1, oneToken 2] id
    (.refl) (fun _ => true) false ready_onePageLeft (fun _ _ _ => rfl) hsync
  exact ⟨u, hrun, hperm⟩

end SparkInfer.Sched
