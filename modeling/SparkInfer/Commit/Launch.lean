import SparkInfer.Commit.Synced

/-!
# Scheduling and launching

What is scheduled has its part of the row in place, and the launch writes the rest: the
phase of the request afterwards has one more result to be processed.
-/

namespace SparkInfer.Commit

open List Bool Req Option

variable {G : Type} {cfg : Config G} {r : Req G} {q : List Pending} {cached cached' : List Handed}
variable {r' : Req G} {sources : List ℕ} {extendEnd extra : ℕ} {row : ℕ → Option Token}
variable {token : Token}
variable {caches : Bool} {written start i accepted : ℕ} {action : Action} {rest : List Pending}
variable {bonus : Token} {kind : Kind} {new : Pending}

/-! ## The prefix cache -/

theorem refreshFillIds_eq (h : FillOk r) :
    r.refreshFillIds = { r with fillIds := r.originInputIds ++ r.outputIds } := by
  unfold refreshFillIds
  dsimp only
  split_ifs with hgrow
  · have hfill := prefix_iff_eq_take.mp (h hgrow.1 hgrow.2)
    have hrest : r.outputIds.drop (r.fillIds.length - r.originInputIds.length) =
        (r.originInputIds ++ r.outputIds).drop r.fillIds.length := by
      rw [drop_append, drop_of_length_le hgrow.1, nil_append]
    have hall : r.fillIds ++ r.outputIds.drop (r.fillIds.length - r.originInputIds.length) =
        r.originInputIds ++ r.outputIds := by
      rw [hrest]
      exact (congrArg (· ++ _) hfill).trans (take_append_drop _ _)
    rw [hall]
  · rfl

theorem cacheUnfinishedReq_spec (hsound : ∀ h ∈ cached, h.Sound)
    (hended : r.extendEnd ≤ r.fillIds.length) (hrow : ∀ i < r.extendEnd, r.row i = r.fillIds[i]?)
    (h : r.cacheUnfinishedReq cfg cached sources = some (r', cached')) :
    (∃ row, r' = { r with row := row, prefixLen := r.extendEnd } ∧
      (∀ i < r.extendEnd, row i = r.fillIds[i]?) ∧ ∀ i, r.extendEnd ≤ i → row i = r.row i) ∧
    ∀ h ∈ cached', h.Sound := by
  have hlen : r.getFillIds.length = r.extendEnd := by
    rw [getFillIds, length_take]
    exact min_eq_left hended
  have hat : ∀ i < r.extendEnd, r.getFillIds[i]? = r.fillIds[i]? := fun i hi =>
    getElem?_take_of_lt hi
  unfold cacheUnfinishedReq at h
  dsimp only at h
  split at h
  · cases h
  rename_i row hmatch
  have hnew : ∀ e ∈ cached ++ [{ key := r.getFillIds, len := r.getFillIds.length, row := r.row }],
      Handed.Sound e := by
    intro e he
    rcases mem_append.mp he with he | he
    · exact hsound e he
    rw [mem_singleton.mp he]
    refine ⟨rfl, fun i hi => ?_⟩
    have hlt : i < r.extendEnd := hlen ▸ hi
    exact (hrow i hlt).trans (hat i hlt).symm
  obtain ⟨hfrom, hkeep⟩ := matchRow_spec hnew hmatch
  cases h
  refine ⟨⟨row, by rw [hlen], fun i hi => ?_, fun i hi => ?_⟩, hnew⟩
  · by_cases hsource : i < sources.length
    · exact (hfrom i hsource).2.trans (hat i hi)
    · exact (hkeep i (not_lt.mp hsource)).trans (hrow i hi)
  · refine hkeep i (not_lt.mp fun hsource => ?_)
    have := (hfrom i hsource).1
    omega

theorem stashChunkedRequest_spec (hsound : ∀ h ∈ cached, h.Sound)
    (hchunk : Chunked r q r.extendEnd 0)
    (h : r.stashChunkedRequest cfg cached caches sources = some (r', cached')) :
    Chunked r' q r.extendEnd 0 ∧ r'.extendEnd = r.extendEnd ∧ r'.fillIds = r.fillIds ∧
      r'.pending = r.pending ∧ ∀ h ∈ cached', h.Sound := by
  unfold stashChunkedRequest at h
  split at h
  · obtain ⟨⟨row, rfl, hrow, -⟩, hsound'⟩ := cacheUnfinishedReq_spec hsound hchunk.ended hchunk.row h
    exact ⟨{ hchunk with below := le_rfl, row := hrow }, rfl, rfl, rfl, hsound'⟩
  · cases h
    exact ⟨hchunk, rfl, rfl, rfl, hsound⟩

/-! ## Scheduling -/

/-- The chunk up to `extendEnd` leaves one more result to count as a middle one, or is
the last. -/
def middleOf (r : Req G) : ℕ := if r.extendEnd < r.fillIds.length then 1 else 0

def Planned (cfg : Config G) (r : Req G) (q : List Pending) : Action → Prop
  | .admitted _ _ _ | .chunk _ _ _ _ => Chunked r q r.prefixLen (middleOf r)
  | .decode _ => Running cfg r q 1 ∧ cfg.spec = false
  | .mixed _ => Running cfg r q (if cfg.spec then 0 else 1)
  | .verify drafts accepted _ => Running cfg r q 0 ∧ cfg.spec = true ∧ accepted ≤ drafts.length
  | _ => Phase cfg r q

theorem prepareForExtend_spec
    (hchunk : Chunked { r with holdsKv := true, isRetracted := false, extendEnd := written, kvCommittedLen := written } q written 0)
    (hbelow : r.prefixLen ≤ written) (h : r.prepareForExtend extendEnd = some r') :
    Chunked r' q r'.prefixLen (middleOf r') ∧ r'.pending = r.pending := by
  unfold prepareForExtend at h
  split at h
  · rename_i hroom
    cases h
    exact ⟨⟨rfl, hchunk.unfinished, rfl, hchunk.fill, rfl, hroom.2, hroom.1.le,
      fun i hi => hchunk.row i (hi.trans_le hbelow),
      congrArg (· + if extendEnd < r.fillIds.length then 1 else 0) hchunk.inflight, hchunk.chunks⟩, rfl⟩
  · cases h

theorem FillOk.of_fill (h : r.fillIds = r.originInputIds ++ r.outputIds) : FillOk r :=
  fun _ _ => h ▸ prefix_rfl

/-! What the guards of the scheduler say about the phase. -/

section

variable (h : Phase cfg r q)
include h

theorem Phase.of_free (hfree : ¬(r.holdsKv || r.finished) = true) :
    r.finished = false ∧ r.holdsKv = false ∧ r.inflightMiddleChunks = 0 ∧ FillOk r := by
  cases h with
  | done holds finished => simp [finished] at hfree
  | chunked chunk => simp [chunk.holds] at hfree
  | running run => simp [run.holds] at hfree
  | waiting holds unfinished inflight fill => exact ⟨unfinished, holds, inflight, fill⟩

theorem Phase.of_chunked (hchunked : r.isChunked = true) :
    Chunked r q r.extendEnd 0 ∧ r.extendEnd < r.fillIds.length := by
  simp only [isChunked, and_eq_true, decide_eq_true_eq] at hchunked
  obtain ⟨⟨hholds, -⟩, hlt⟩ := hchunked
  cases h with
  | done holds | waiting holds => simp [holds] at hholds
  | chunked chunk middle => exact ⟨chunk, middle⟩
  | running run => exact absurd run.ended hlt.ne

theorem Phase.of_running (hrunning : r.isRunning = true) : Running cfg r q 0 := by
  simp only [isRunning, and_eq_true, decide_eq_true_eq] at hrunning
  obtain ⟨⟨hholds, -⟩, heq⟩ := hrunning
  cases h with
  | done holds | waiting holds => simp [holds] at hholds
  | chunked _ middle => exact absurd heq middle.ne
  | running run => exact run

theorem Phase.fillOk (hholds : r.holdsKv = true) : FillOk r := by
  cases h with
  | done holds | waiting holds => simp [holds] at hholds
  | chunked chunk => exact .of_fill chunk.fill
  | running run => exact fun _ _ => run.fill

end

theorem planned_first {prefixLen : ℕ}
    (hun : r.finished = false) (hinflight : r.inflightMiddleChunks = 0) (hfill : FillOk r)
    (hrow : ∀ i < prefixLen, i < (r.originInputIds ++ r.outputIds).length ∧
      row i = (r.originInputIds ++ r.outputIds)[i]?)
    (h : { r.refreshFillIds with row := row, prefixLen := prefixLen }.prepareForExtend extendEnd = some r') :
    Chunked r' [] r'.prefixLen (middleOf r') ∧ r'.pending = r.pending := by
  rw [refreshFillIds_eq hfill] at h
  have hlen : prefixLen ≤ (r.originInputIds ++ r.outputIds).length := by
    by_contra hlt
    exact absurd (hrow _ (not_le.mp hlt)).1 (lt_irrefl _)
  have hchunk : Chunked { r with
      fillIds := r.originInputIds ++ r.outputIds, row := row, prefixLen := prefixLen
      holdsKv := true, isRetracted := false, extendEnd := prefixLen
      kvCommittedLen := prefixLen } [] prefixLen 0 :=
    ⟨rfl, hun, rfl, rfl, rfl, hlen, le_rfl, fun i hi => (hrow i hi).2, hinflight.symm,
      fun p hp => absurd hp not_mem_nil⟩
  have hplan := prepareForExtend_spec hchunk le_rfl h
  exact hplan

theorem planned_admitted (hsound : ∀ h ∈ cached, h.Sound) (hphase : Phase cfg r q)
    (hq : r.holdsKv = false → r.finished = false → q = [])
    (h : r.schedule cfg cached (.admitted sources extendEnd token) = some (r', cached')) :
    Planned cfg r' q (.admitted sources extendEnd token) ∧ r'.pending = r.pending ∧ cached' = cached := by
  dsimp only [schedule] at h
  split at h
  · cases h
  rename_i hfree
  obtain ⟨row, hmatch, h⟩ := bind_eq_some_iff.mp h
  obtain ⟨r₁, hprepare, h⟩ := bind_eq_some_iff.mp h
  cases h
  obtain ⟨hun, hholds, hinflight, hfill⟩ := hphase.of_free hfree
  obtain rfl := hq hholds hun
  rw [refreshFillIds_eq hfill] at hmatch
  obtain ⟨hplan, hpending⟩ := planned_first hun hinflight hfill (matchRow_spec hsound hmatch).1 hprepare
  exact ⟨hplan, hpending, rfl⟩

theorem planned_next (hchunk : Chunked r q written 0) (hended : r.extendEnd = written)
    (h : r.refreshFillIds.prepareForExtend extendEnd = some r') :
    Chunked r' q r'.prefixLen (middleOf r') ∧ r'.pending = r.pending := by
  rw [refreshFillIds_eq (.of_fill hchunk.fill)] at h
  have hready : Chunked { r with
      fillIds := r.originInputIds ++ r.outputIds, holdsKv := true, isRetracted := false
      extendEnd := written, kvCommittedLen := written } q written 0 :=
    ⟨rfl, hchunk.unfinished, rfl, rfl, rfl, hended ▸ hchunk.fill ▸ hchunk.ended,
      hended ▸ hchunk.below, fun i hi => (hchunk.row i hi).trans (congrArg (·[i]?) hchunk.fill),
      hchunk.inflight, hchunk.chunks⟩
  have hplan := prepareForExtend_spec hready (hended ▸ hchunk.below) h
  exact hplan

theorem planned_chunk (hsound : ∀ h ∈ cached, h.Sound) (hphase : Phase cfg r q)
    (h : r.schedule cfg cached (.chunk caches sources extendEnd token) = some (r', cached')) :
    Planned cfg r' q (.chunk caches sources extendEnd token) ∧ r'.pending = r.pending ∧
      ∀ h ∈ cached', h.Sound := by
  dsimp only [schedule] at h
  split at h
  · rename_i hchunked
    obtain ⟨⟨r₁, cached₁⟩, hstash, h⟩ := bind_eq_some_iff.mp h
    obtain ⟨r₂, hprepare, h⟩ := bind_eq_some_iff.mp h
    cases h
    obtain ⟨hchunk, hended, -, hpending, hsound'⟩ :=
      stashChunkedRequest_spec hsound (hphase.of_chunked hchunked).1 hstash
    obtain ⟨hplan, hkeep⟩ := planned_next hchunk hended hprepare
    exact ⟨hplan, hkeep.trans hpending, hsound'⟩
  · cases h

theorem Running.prepareForDecode (h : Running cfg r q 0) :
    Running cfg (r.prepareForDecode cfg) q (if cfg.spec then 0 else 1) ∧
      (r.prepareForDecode cfg).pending = r.pending := by
  unfold Req.prepareForDecode
  split
  · exact ⟨h, rfl⟩
  refine ⟨{ h with aligned := ?_ }, rfl⟩
  obtain ⟨mids, rest, hq, hmids, hchunks, ha⟩ := h.aligned
  refine ⟨mids, rest, hq, hmids, hchunks, { ha with committed := ?_ }⟩
  have := ha.committed
  change r.kvCommittedLen + 1 + uncounted cfg rest = r.seqLen + 1
  omega

theorem Running.refresh (h : Running cfg r q extra) :
    Running cfg { r.refreshFillIds with extendEnd := r.refreshFillIds.fillIds.length } q extra := by
  rw [refreshFillIds_eq fun _ _ => h.fill]
  refine ⟨h.holds, h.unfinished, h.resident, rfl, prefix_rfl, ?_⟩
  obtain ⟨mids, rest, hq, hmids, hchunks, ha⟩ := h.aligned
  exact ⟨mids, rest, hq, hmids, hchunks, { ha with prompt := fun _ _ _ => rfl }⟩

theorem planned_retract (hphase : Phase cfg r q) (hq : cfg.overlap = false → q = [])
    (hheld : (r.holdsKv && !r.finished) = true) (dropOutput : Bool) :
    Phase cfg ((r.releaseKvCache false false).1.resetForRetract dropOutput) q := by
  simp only [and_eq_true, not_eq_true'] at hheld
  obtain ⟨hholds, hun⟩ := hheld
  have hfill := hphase.fillOk hholds
  have hdropped : q = [] ∨ (true = true ∧ cfg.overlap = true) := by
    cases ho : cfg.overlap with
    | false => exact .inl (hq ho)
    | true => exact .inr ⟨rfl, rfl⟩
  rw [releaseKvCache, if_pos hholds]
  refine .waiting rfl hun rfl (fun horigin hle => ?_) hdropped
  cases dropOutput with
  | false => exact hfill horigin hle
  | true =>
    -- without its output, the fill ids that remain usable are the prompt
    have heq : r.fillIds.length - r.originInputIds.length ≤ 0 := hle
    have hall := hfill horigin (by omega)
    have hlen : r.fillIds.length = r.originInputIds.length := by
      have : r.originInputIds.length ≤ r.fillIds.length := horigin
      omega
    have hprompt : r.fillIds = r.originInputIds :=
      (prefix_of_prefix_length_le hall (prefix_append _ _) hlen.le).eq_of_length hlen
    change r.fillIds <+: r.originInputIds ++ []
    rw [hprompt, append_nil]

theorem planned_schedule (hsound : ∀ h ∈ cached, h.Sound) (hphase : Phase cfg r q)
    (hfree : r.holdsKv = false → r.finished = false → q = []) (hsync : cfg.overlap = false → q = [])
    (h : r.schedule cfg cached action = some (r', cached')) :
    Planned cfg r' q action ∧ r'.pending = r.pending ∧ ∀ h ∈ cached', h.Sound := by
  cases action with
  | idle =>
    cases h
    exact ⟨hphase, rfl, hsound⟩
  | admitted sources extendEnd token =>
    obtain ⟨hplan, hpending, rfl⟩ := planned_admitted hsound hphase hfree h
    exact ⟨hplan, hpending, hsound⟩
  | chunk caches sources extendEnd token => exact planned_chunk hsound hphase h
  | park caches sources =>
    dsimp only [schedule] at h
    split at h
    · rename_i hchunked
      obtain ⟨hchunk, hmiddle⟩ := hphase.of_chunked hchunked
      obtain ⟨hstashed, hended, hfill, hpending, hsound'⟩ := stashChunkedRequest_spec hsound hchunk h
      exact ⟨.chunked (hended.symm ▸ hstashed) (by rwa [hended, hfill]), hpending, hsound'⟩
    · cases h
  | decode token =>
    dsimp only [schedule] at h
    split at h
    · rename_i hguard
      simp only [and_eq_true, not_eq_true'] at hguard
      obtain ⟨hrun, hpending⟩ := (hphase.of_running hguard.1).prepareForDecode
      cases h
      rw [hguard.2] at hrun
      exact ⟨⟨hrun, hguard.2⟩, hpending, hsound⟩
    · cases h
  | mixed token =>
    dsimp only [schedule] at h
    split at h
    · rename_i hrunning
      obtain ⟨hrun, hpending⟩ := (hphase.of_running hrunning).prepareForDecode
      cases h
      refine ⟨hrun.refresh, ?_, hsound⟩
      rwa [refreshFillIds_eq fun _ _ => hrun.fill]
    · cases h
  | verify drafts accepted bonus =>
    dsimp only [schedule] at h
    split at h
    · rename_i hguard
      simp only [and_eq_true, decide_eq_true_eq] at hguard
      obtain ⟨hrun, hpending⟩ := (hphase.of_running hguard.1.1).prepareForDecode
      cases h
      rw [hguard.1.2] at hrun
      exact ⟨⟨hrun, hguard.1.2, hguard.2⟩, hpending, hsound⟩
    · cases h
  | retract dropOutput =>
    dsimp only [schedule] at h
    split at h
    · rename_i hheld
      cases h
      refine ⟨planned_retract hphase hsync hheld dropOutput, ?_, hsound⟩
      simp only [releaseKvCache]
      split <;> rfl
    · cases h
  | abortChunked =>
    dsimp only [schedule] at h
    split at h
    · rename_i hchunked
      cases h
      have hholds := (hphase.of_chunked hchunked).1.holds
      rw [releaseKvCache, if_pos hholds]
      exact ⟨.done rfl rfl hsync, rfl, hsound⟩
    · cases h

/-! ## Launching -/

theorem write_below (tokens : List Token) (hi : i < start) :
    write row start tokens i = row i := if_pos hi

theorem write_at {tokens : List Token} {t : Token} (hi : start ≤ i)
    (ht : tokens[i - start]? = some t) : write row start tokens i = some t := by
  unfold write
  rw [if_neg (not_lt.mpr hi), ht]
  rfl

section Drafts

variable (drafts : List Token) (hle : accepted ≤ drafts.length) (hkind : kind ≠ .extend)
variable (hnew : new = ⟨kind, drafts.take accepted ++ [bonus], none, false⟩) (hformed : new.Formed cfg)
variable (hcount : extra + new.uncounted cfg = accepted + 1)
include hle hkind hnew hformed hcount

/-- A launch writes the pending token and the drafts, and its accepted drafts become the
tokens at their positions. -/
theorem Aligned.launched (h : Aligned cfg r rest extra) : Aligned cfg (r.launched r.seqLen (r.lastToken :: drafts) (r.seqLen + accepted + 1) kind
      (drafts.take accepted ++ [bonus])) (rest ++ [new]) 0 := by
  have htokens : new.tokens = drafts.take accepted ++ [bonus] := by rw [hnew]
  have hall : r.originInputIds ++ r.outputIds ++ sampled (rest ++ [new]) =
      r.originInputIds ++ r.outputIds ++ sampled rest ++ (drafts.take accepted ++ [bonus]) := by
    rw [sampled_snoc, htokens, append_assoc _ (sampled rest)]
  have hlen := h.length
  have hat : ∀ j, (r.originInputIds ++ r.outputIds ++ sampled rest ++
      (drafts.take accepted ++ [bonus]))[r.seqLen + 1 + j]? = (drafts.take accepted ++ [bonus])[j]? := by
    intro j
    rw [getElem?_append_right (by omega)]
    congr 1
    omega
  have hleft : ∀ i ≤ r.seqLen, (r.originInputIds ++ r.outputIds ++ sampled rest ++
      (drafts.take accepted ++ [bonus]))[i]? = (r.originInputIds ++ r.outputIds ++ sampled rest)[i]? :=
    fun i hi => getElem?_append_left (hlen ▸ Nat.lt_succ_of_le hi)
  have hdrafts : (drafts.take accepted).length = accepted := by
    rw [length_take]
    exact min_eq_left hle
  refine ⟨?_, ?_, ?_, h.origin.trans (by change r.seqLen ≤ r.seqLen + accepted + 1; omega), ?_, ?_, ?_, ?_⟩
  · intro p hp
    rcases mem_append.mp hp with hp | hp
    · exact h.formed p hp
    · rwa [mem_singleton.mp hp]
  · intro p hp
    cases rest with
    | nil => exact absurd hp not_mem_nil
    | cons head tail =>
      rcases mem_append.mp hp with hp | hp
      · exact h.tail p hp
      · rwa [mem_singleton.mp hp, hnew]
  · intro p hp hextend
    cases rest with
    | nil =>
      obtain rfl : new = p := some.inj hp
      rw [hnew] at hextend
      exact absurd hextend hkind
    | cons head tail => exact h.prompt p hp hextend
  · change (r.originInputIds ++ r.outputIds ++ sampled (rest ++ [new])).length = r.seqLen + accepted + 1 + 1
    rw [hall, length_append, hlen, length_append]
    exact (add_assoc _ _ _).trans (by simp; omega)
  · change (r.originInputIds ++ r.outputIds ++ sampled (rest ++ [new]))[r.seqLen + accepted + 1]? =
      some ((drafts.take accepted ++ [bonus]).getLast?.getD r.lastToken)
    rw [hall, show r.seqLen + accepted + 1 = r.seqLen + 1 + accepted by omega, hat,
      getLast?_concat, getElem?_append_right hdrafts.le, hdrafts, Nat.sub_self]
    rfl
  · intro i hi
    have hi : i < r.seqLen + accepted + 1 := hi
    change write r.row r.seqLen (r.lastToken :: drafts) i =
      (r.originInputIds ++ r.outputIds ++ sampled (rest ++ [new]))[i]?
    rw [hall]
    by_cases hold : i < r.seqLen
    · rw [write_below _ hold, h.row i hold, hleft i hold.le]
    by_cases hseq : i = r.seqLen
    · subst hseq
      rw [hleft _ le_rfl, h.last]
      exact write_at le_rfl (by rw [Nat.sub_self]; rfl)
    obtain ⟨j, rfl⟩ := Nat.exists_eq_add_of_le (show r.seqLen + 1 ≤ i by omega)
    have hj : j < accepted := by omega
    have hdraft : drafts[j]? = some drafts[j] := getElem?_eq_getElem (hj.trans_le hle)
    rw [hat, getElem?_append_left (hdrafts.symm ▸ hj), getElem?_take_of_lt hj, hdraft]
    refine write_at (by omega) ?_
    rw [show r.seqLen + 1 + j - r.seqLen = j + 1 by omega, getElem?_cons_succ, hdraft]
  · have := h.committed
    rw [uncounted_snoc]
    change r.kvCommittedLen + (uncounted cfg rest + new.uncounted cfg) = r.seqLen + accepted + 1 + 0
    omega

theorem Running.launched (h : Running cfg r q extra) : Running cfg (r.launched r.seqLen (r.lastToken :: drafts) (r.seqLen + accepted + 1) kind
      (drafts.take accepted ++ [bonus])) (q ++ [new]) 0 := by
  refine { h with aligned := ?_ }
  obtain ⟨mids, rest, rfl, hmids, hchunks, ha⟩ := h.aligned
  exact ⟨mids, rest ++ [new], append_assoc _ _ _, hmids, hchunks,
    ha.launched drafts hle hkind hnew hformed hcount⟩

end Drafts

theorem mixedTail_eq (h : Aligned cfg r rest extra) (hsync : cfg.overlap = false → rest = []) :
    r.mixedTail cfg = (r.seqLen, r.lastToken) := by
  unfold mixedTail
  split_ifs with hguard
  · simp only [and_eq_true, not_eq_true'] at hguard
    obtain rfl := hsync hguard.2
    have hlen := h.length
    have hlast := h.last
    have horigin := h.origin
    simp only [sampled, flatMap_nil, append_nil, length_append] at hlen hlast
    rw [getElem?_append_right horigin, show r.seqLen - r.originInputIds.length =
      r.outputIds.length - 1 by omega, ← getLast?_eq_getElem?] at hlast
    rw [hlast, show r.originInputIds.length + r.outputIds.length - 1 = r.seqLen by omega]
    rfl
  · rfl

theorem Chunked.launched (h : Chunked r q r.prefixLen (middleOf r)) :
    Phase cfg (r.launched r.prefixLen (r.getFillIds.drop r.prefixLen) r.extendEnd .extend [token])
      (q ++ [⟨.extend, [token], none, false⟩]) := by
  have hrow : ∀ i < r.extendEnd,
      write r.row r.prefixLen (r.getFillIds.drop r.prefixLen) i = r.fillIds[i]? := by
    intro i hi
    by_cases hold : i < r.prefixLen
    · rw [write_below _ hold, h.row i hold]
    obtain ⟨t, hat⟩ : ∃ t, r.fillIds[i]? = some t := ⟨_, getElem?_eq_getElem (hi.trans_le h.ended)⟩
    rw [hat]
    refine write_at (not_lt.mp hold) ?_
    rw [getElem?_drop, Nat.add_sub_cancel' (not_lt.mp hold), getFillIds,
      getElem?_take_of_lt hi, hat]
  have hchunks : ∀ p ∈ q ++ [⟨.extend, [token], none, false⟩], Pending.kind p = .extend := by
    intro p hp
    rcases mem_append.mp hp with hp | hp
    · exact h.chunks p hp
    · rw [mem_singleton.mp hp]
  have hinflight := h.inflight
  unfold middleOf at hinflight
  split_ifs at hinflight with hmiddle
  · refine .chunked { h with row := hrow, inflight := ?_, chunks := hchunks } hmiddle
    rwa [length_append]
  have hended := le_antisymm h.ended (not_lt.mp hmiddle)
  have hlen : (r.originInputIds ++ r.outputIds).length = r.extendEnd := by rw [hended, h.fill]
  refine .running ⟨h.holds, h.unfinished, h.resident, hended, h.fill ▸ prefix_rfl, q,
    [⟨.extend, [token], none, false⟩], rfl, hinflight, h.chunks, ?_⟩
  refine ⟨?_, fun p hp => absurd hp not_mem_nil, fun _ _ _ => h.fill, ?_, ?_, ?_, fun i hi => ?_, ?_⟩
  · intro p hp
    rw [mem_singleton.mp hp]
    exact ⟨cons_ne_nil _ _, fun _ => rfl, (by rintro ⟨⟩), (by rintro ⟨⟩)⟩
  · rw [← hlen, length_append]
    exact Nat.le_add_right _ _
  · change (r.originInputIds ++ r.outputIds ++ [token]).length = r.extendEnd + 1
    rw [length_append, hlen]
    rfl
  · change (r.originInputIds ++ r.outputIds ++ [token])[r.extendEnd]? = some token
    rw [← hlen, getElem?_concat_length]
  · change write _ _ _ i = (r.originInputIds ++ r.outputIds ++ [token])[i]?
    rw [hrow i hi, getElem?_append_left (hlen.symm ▸ hi), h.fill]
  · exact h.committed

theorem Planned.launch (h : Planned cfg r q action) (hnone : r.pending = none)
    (hsync : cfg.overlap = false → q = []) :
    Phase cfg (r.launch cfg action) (q ++ (r.launch cfg action).pending.toList) := by
  have hquiet : Phase cfg r q → Phase cfg r (q ++ r.pending.toList) := by
    rw [hnone, toList_none, append_nil]
    exact id
  cases action with
  | idle | park caches sources | retract dropOutput | abortChunked => exact hquiet h
  | admitted sources extendEnd token | chunk caches sources extendEnd token =>
    exact Chunked.launched h
  | decode token =>
    obtain ⟨hrun, hspec⟩ := h
    exact .running (hrun.launched [] le_rfl (by decide) rfl
      ⟨cons_ne_nil _ _, fun _ => rfl, fun _ => hspec, (by rintro ⟨⟩)⟩ rfl)
  | mixed token =>
    have hrun : Running cfg r q (if cfg.spec then 0 else 1) := h
    obtain ⟨mids, rest, hq, -, -, ha⟩ := hrun.aligned
    have htail := mixedTail_eq ha fun ho => (append_eq_nil_iff.mp (hq ▸ hsync ho)).2
    dsimp only [launch]
    rw [htail]
    refine .running (hrun.launched [] le_rfl (by decide) rfl
      ⟨cons_ne_nil _ _, fun _ => rfl, (by rintro ⟨⟩), (by rintro ⟨⟩)⟩ ?_)
    simp only [Pending.uncounted]
    split <;> rfl
  | verify drafts accepted bonus =>
    obtain ⟨hrun, hspec, hle⟩ := h
    refine .running (hrun.launched drafts hle (by decide) rfl
      ⟨append_ne_nil_of_right_ne_nil _ (cons_ne_nil _ _), fun h => absurd rfl h,
        (by rintro ⟨⟩), fun _ => hspec⟩ ?_)
    change 0 + (drafts.take accepted ++ [bonus]).length = accepted + 1
    rw [length_append, length_take, min_eq_left hle]
    exact zero_add _

end SparkInfer.Commit
