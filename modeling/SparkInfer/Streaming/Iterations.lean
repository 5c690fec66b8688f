import SparkInfer.Streaming.Slots

/-!
# An iteration of a turn

A turn goes on in step with the device, or it ends.  When it ends, the slot keeps the
positions up to the finished length, as far as there are slots for them; they are written
unless the last of them is a token that no further step has taken as its input, which
only a speculative reserve lets the slot count.
-/

namespace SparkInfer.Streaming.Turns

open Commit List Bool

variable {G : Type} {cfg : Config G}
variable {action : Action} {it : Iteration}
variable {r : Req G} {p : Pending} {q : List Pending} {extra : ℕ}

section Results

variable {r' : Req G} {cached cached' : List Handed}
  {v : Verdict} {t : Turn G} {floored : Bool}

theorem cacheFinishedReq_ids
    (hcounts : t.req.finishedLen.getD t.req.outputIds.length ≤ t.req.params.maxNewTokens) :
    (t.cacheFinishedReq cfg floored).2 = t.req.originInputIds ++
      t.req.outputIds.take (t.req.finishedLen.getD t.req.outputIds.length) := by
  change t.req.originInputIds ++ (t.req.outputIds.take _).take _ = _
  rw [take_take, min_eq_right hcounts]

/-- The slot of a turn that has ended: `r` is the request before its last result. -/
theorem finished_holds (hrun : Running cfg r (p :: q) extra) (hmemo : Memo cfg r p)
    (hlen : r.finishedLen = none) (haborts : OnlyAborts r)
    (hproc : r.processBatchResult cfg v cached (some p) = some (r', cached')) (hfin : r'.finished = true)
    (hjob : SameJob r' t.req) (hreason : r'.finishedReason ≠ some .abort)
    (hlocated : v.str.located r'.outputIds.length = true) (hrow : ∀ i < t.req.seqLen, i ≤ r.seqLen →
      t.req.row i = (r.originInputIds ++ r.outputIds ++ sampled (p :: q))[i]?)
    (hreached : (t.cacheFinishedReq cfg floored).1.kvCommittedLen ≤ t.req.seqLen)
    (hvocab : ∀ r₁ tokens, r.counted cfg p = some (r₁, tokens) → ∀ j x, tokens[j]? = some x →
      r₁.outOfVocab x = true → (t.cacheFinishedReq cfg floored).1.kvCommittedLen ≤
        r₁.originInputIds.length + r₁.outputIds.length + j) :
    (t.cacheFinishedReq cfg floored).1.Holds (t.cacheFinishedReq cfg floored).2 := by
  have ha := hrun.ends hproc hfin
  obtain ⟨r₁, tokens, hcounted, htokens, -, hclosed⟩ := process_closed hrun.unfinished hrun.resident
    (ha.formed p mem_cons_self) hmemo hproc hfin
  have hsame := sameJob_counted hcounted
  have horigin := hjob.origin.trans (hclosed.origin.trans hsame.origin)
  obtain ⟨hcount, hmax⟩ := hclosed.counts (hsame.finishedLen.trans hlen) (hsame.aborts haborts) hlocated hreason
  rw [← hjob.finishedLen, ← hjob.output] at hcount hmax
  rw [← hjob.params] at hmax
  obtain ⟨htarget, -⟩ := t.cacheFinishedReq_le cfg floored
  have hids := @cacheFinishedReq_ids _ cfg t floored hmax
  have hslot : (t.cacheFinishedReq cfg floored).1.row = t.req.row := rfl
  have hlength : t.req.outputIds.length = (r.outputIds ++ tokens).length := by
    rw [hjob.output, hclosed.length, hsame.output]
  -- all that the request has sampled, up to the run that ended it
  have hall : r.originInputIds ++ (r.outputIds ++ tokens) <+:
      r.originInputIds ++ r.outputIds ++ sampled (p :: q) := by
    rw [append_assoc, prefix_append_right_inj, prefix_append_right_inj]
    exact htokens.trans (prefix_append _ _)
  have hfull := ha.length
  rw [hids]
  refine ⟨by rw [length_append, length_take, min_eq_left hcount]; exact htarget, fun i hi => ?_⟩
  have hlt : i < (r.originInputIds ++ (r.outputIds ++ tokens)).length := by
    rw [length_append, ← horigin]
    omega
  have hat : (r.originInputIds ++ r.outputIds ++ sampled (p :: q))[i]? =
      (r.originInputIds ++ (r.outputIds ++ tokens))[i]? := by
    obtain ⟨rest, hrest⟩ := hall
    rw [← hrest, getElem?_append_left hlt]
  rw [hslot, hrow i (hi.trans_le hreached) (by have := hall.length_le; omega), hat, horigin]
  by_cases hprompt : i < r.originInputIds.length
  · rw [getElem?_append_left hprompt, getElem?_append_left hprompt]
  rw [getElem?_append_right (not_lt.mp hprompt), getElem?_append_right (not_lt.mp hprompt),
    getElem?_take_of_lt (by rw [horigin] at htarget; omega)]
  by_contra hne
  rw [hjob.output, ← hsame.output] at hne
  obtain ⟨k, x, hk, hx, hbad⟩ := hclosed.changed _ (Ne.symm hne)
  have hkept := hvocab r₁ tokens hcounted k x hx hbad
  rw [hsame.origin] at hkept
  omega

/-! The launch that follows a result, when the overlap is off for the batch. -/

def prefills : Action → Bool
  | .admitted _ _ _ | .chunk _ _ _ _ => true
  | _ => false

/-- What a result makes of the request: it goes on, or it was running and is finished. -/
def Goes (cfg : Config G) (r r' : Req G) (pending : List Pending) (action : Action) : Prop :=
  (r'.finished = false → Continued r r') ∧
    (r'.finished = true → prefills action = false ∧ ∃ extra, Running cfg r pending extra) ∧
    (r.holdsKv = false → r' = r)

theorem planned_outcome (h : Planned cfg r (p :: q) action) (hun : r.finished = false)
    (hproc : r.processBatchResult cfg v cached (some p) = some (r', cached')) :
    Goes cfg r r' (p :: q) action := by
  have hphase : Phase cfg r (p :: q) → prefills action = false → Goes cfg r r' (p :: q) action :=
    fun hphase hno =>
      (hphase.outcome hun hproc).imp id fun h => ⟨fun hfin => ⟨hno, 0, h.1 hfin⟩, h.2⟩
  have hrun : ∀ {extra}, Running cfg r (p :: q) extra → prefills action = false →
      Goes cfg r r' (p :: q) action := fun hrun hno =>
    ⟨hrun.continued hproc, fun _ => ⟨hno, _, hrun⟩,
      fun hfree => nomatch hrun.holds.symm.trans hfree⟩
  have hchunk : ∀ {written middle}, Chunked r (p :: q) written middle →
      Goes cfg r r' (p :: q) action := by
    intro written middle hchunk
    obtain ⟨hcontinued, hopen⟩ := hchunk.continued hproc
    exact ⟨fun _ => hcontinued, fun hfin => (nomatch hfin.symm.trans hopen),
      fun hfree => nomatch hchunk.holds.symm.trans hfree⟩
  cases action with
  | idle | park | retract | abortChunked => exact hphase h rfl
  | admitted | chunk => exact hchunk h
  | decode | verify => exact hrun h.1 rfl
  | mixed => exact hrun h rfl

theorem launch_row (hoverlap : cfg.overlap = true) (hno : prefills action = false)
    (hspan : SameSpan r r') (hsame : r'.row = r.row) (ha : Aligned cfg r (p :: q) extra) :
    ∀ i < (r'.launch cfg action).seqLen, i ≤ r.seqLen → (r'.launch cfg action).row i =
      (r.originInputIds ++ r.outputIds ++ sampled (p :: q))[i]? := by
  have hquiet : ∀ i < r'.seqLen, i ≤ r.seqLen →
      r'.row i = (r.originInputIds ++ r.outputIds ++ sampled (p :: q))[i]? := by
    intro i hi _
    rw [hsame]
    exact ha.row i (hspan.seqLen ▸ hi)
  have hwrite : ∀ rest i, i ≤ r.seqLen → Req.write r'.row r'.seqLen (r'.lastToken :: rest) i =
      (r.originInputIds ++ r.outputIds ++ sampled (p :: q))[i]? := by
    intro rest i hi
    rcases hi.lt_or_eq with hlt | rfl
    · rw [write_below _ (hspan.seqLen ▸ hlt)]
      exact hquiet i (hspan.seqLen ▸ hlt) hi
    · rw [ha.last, write_at hspan.seqLen.le]
      rw [hspan.seqLen, Nat.sub_self, hspan.lastToken]
      rfl
  cases action with
  | idle | park | retract | abortChunked => exact hquiet
  | admitted | chunk => cases hno
  | decode => exact fun i _ hi => hwrite [] i hi
  | verify drafts => exact fun i _ hi => hwrite drafts i hi
  | mixed token =>
    intro i _ hi
    have htail : r'.mixedTail cfg = (r'.seqLen, r'.lastToken) := if_neg (by rw [hoverlap]; simp)
    dsimp only [Req.launch]
    rw [htail]
    exact hwrite [] i hi

theorem launch_reach (hoverlap : cfg.overlap = true) (hspan : SameSpan r r') :
    (r'.launch cfg action).seqLen = (r.launch cfg action).seqLen := by
  have htail : ∀ r : Req G, r.mixedTail cfg = (r.seqLen, r.lastToken) := fun r =>
    if_neg (by rw [hoverlap]; simp)
  cases action with
  | idle | park | retract | abortChunked => exact hspan.seqLen
  | admitted | chunk => exact hspan.extendEnd
  | decode => exact congrArg (· + 1) hspan.seqLen
  | verify drafts accepted => exact congrArg (· + accepted + 1) hspan.seqLen
  | mixed =>
    dsimp only [Req.launch]
    rw [htail r, htail r']
    exact congrArg (· + 1) hspan.seqLen

/-- What processing makes of the request `r`: it goes on, or it was running and ends. -/
structure Processed (cfg : Config G) (it : Iteration) (r : Req G) (result : Option Pending) (r' : Req G) :
    Prop where
  continued : r'.finished = false → Continued r r'
  idle : r.holdsKv = false → r' = r
  ended : r'.finished = true → ∃ p q extra, result = some p ∧ Running cfg r (p :: q) extra ∧ Memo cfg r p ∧
    SameSpan r r' ∧ r'.row = r.row ∧ ((cfg.overlap && it.processFirst) = true → prefills it.action = false)

theorem processed_none (hun : r.finished = false) : Processed cfg it r none r :=
  ⟨fun _ => ⟨rfl, rfl, rfl, .inl rfl, id, .refl r, rfl⟩, fun _ => rfl,
    fun hfin => nomatch hfin.symm.trans hun⟩

theorem ended_row (hrun : Running cfg r (p :: q) extra) (hmemo : Memo cfg r p)
    (hproc : r.processBatchResult cfg v cached (some p) = some (r', cached')) (hfin : r'.finished = true) :
    SameSpan r r' ∧ r'.row = r.row := by
  have ha := hrun.ends hproc hfin
  obtain ⟨r₁, tokens, hcounted, -, hspan, hclosed⟩ := process_closed hrun.unfinished hrun.resident
    (ha.formed p mem_cons_self) hmemo hproc hfin
  obtain ⟨committed, grammar, toFinish, -, rfl⟩ := counted_frame hcounted
  exact ⟨hspan, hclosed.row⟩

end Results

section Iterate

variable {s : Session G} {t t' : Turn G} {step : Step} {cached₁ cached₂ : List Handed} {v : Verdict} {r₂ : Req G}

theorem finalReq_frame (cfg : Config G) (it : Iteration) (r : Req G) : SameJob r (finalReq cfg it r) ∧
    (finalReq cfg it r).holdsKv = r.holdsKv ∧ (finalReq cfg it r).extendEnd = r.extendEnd ∧
    (finalReq cfg it r).fillIds = r.fillIds := by
  unfold finalReq
  split
  · exact ⟨.launch cfg r it.action, by cases it.action <;> rfl, by cases it.action <;> rfl,
      by cases it.action <;> rfl⟩
  · exact ⟨.refl r, rfl, rfl, rfl⟩

/-- The scheduled turn is launched and its result processed, in either order. -/
theorem Going.process (hg : Going cfg step.it.action t t' cached₁) (hok : TurnOk cfg t)
    (hinsert : v.isInsert = false)
    (hproc : (t'.req.ready cfg step.it).1.processBatchResult cfg v cached₁ (t'.req.ready cfg step.it).2 =
      some (r₂, cached₂)) :
    Processed cfg step.it (t'.req.ready cfg step.it).1 (t'.req.ready cfg step.it).2 r₂ ∧
      Settled cfg (finalReq cfg step.it r₂) ∧ ∀ h ∈ cached₂, h.Sound := by
  have hold : ∀ p ∈ t'.req.pending, p.grammarAdvanced = false := by
    rw [hg.pending]
    exact hok.settled.fresh
  have hsafe : ∀ p ∈ (t'.req.ready cfg step.it).2, ∀ r₃ tokens,
      (t'.req.ready cfg step.it).1.counted cfg p = some (r₃, tokens) → Insertable v 0 r₃ tokens :=
    fun _ _ _ _ _ h => nomatch hinsert.symm.trans h
  have hun : (t'.req.ready cfg step.it).1.finished = false := by
    rw [(sameJob_ready cfg step.it t'.req).finished, hg.job.finished, hok.unfinished]
  cases hmode : cfg.overlap && step.it.processFirst with
  | false =>
    have hready : Readied cfg (t'.req.ready cfg step.it).1 (t'.req.ready cfg step.it).2 := by
      cases hoverlap : cfg.overlap with
      | false =>
        exact readied_normal hg.plan hoverlap (hg.pending.trans (hok.settled.sync hoverlap))
      | true =>
        rw [hoverlap] at hmode
        exact readied_overlap hg.plan hoverlap hmode hold
    have hfinal : finalReq cfg step.it r₂ = r₂ := if_neg (by rw [hmode]; decide)
    refine ⟨?_, hfinal.symm ▸ hready.settled hsafe hg.sound hproc⟩
    generalize (t'.req.ready cfg step.it).2 = result at hproc hready ⊢
    cases result with
    | none =>
      cases hproc
      exact processed_none hun
    | some p =>
      obtain ⟨hcontinued, hends, hidle⟩ := Phase.outcome hready.phase hun hproc
      refine ⟨hcontinued, hidle, fun hfin => ?_⟩
      have hrun := hends hfin
      have hmemo := hready.memo p rfl hrun.unfinished hrun.resident
      obtain ⟨hspan, hrow⟩ := ended_row hrun hmemo hproc hfin
      exact ⟨p, _, 0, rfl, hrun, hmemo, hspan, hrow, fun h => nomatch hmode.symm.trans h⟩
  | true =>
    have hmodes := and_eq_true_iff.mp hmode
    have hfinal : finalReq cfg step.it r₂ = r₂.launch cfg step.it.action := if_pos hmode
    have hready : t'.req.ready cfg step.it = ({ t'.req with pending := none }, t'.req.pending) := by
      rw [Req.ready, if_pos hmodes.1, if_pos hmodes.2]
    refine ⟨?_, hfinal.symm ▸ settled_first hg.plan hmodes.1 hmodes.2
      (fun h => nomatch hinsert.symm.trans h) hold hg.sound hsafe hproc⟩
    rw [hready] at hproc hun ⊢
    have hplan := hg.plan.keep none
    generalize t'.req.pending = result at hproc hplan hold ⊢
    cases result with
    | none =>
      cases hproc
      exact processed_none hun
    | some p =>
      obtain ⟨hcontinued, hends, hidle⟩ := planned_outcome hplan hun hproc
      refine ⟨hcontinued, hidle, fun hfin => ?_⟩
      obtain ⟨hno, extra, hrun⟩ := hends hfin
      have hmemo : Memo cfg { t'.req with pending := none } p := fun hadvanced =>
        absurd ((hold p rfl).symm.trans hadvanced) (by decide)
      obtain ⟨hspan, hrow⟩ := ended_row hrun hmemo hproc hfin
      exact ⟨p, [], extra, rfl, hrun, hmemo, hspan, hrow, fun _ => hno⟩

theorem final_reach (hspan : SameSpan (r.ready cfg it).1 r₂) :
    (finalReq cfg it r₂).seqLen = (r.launch cfg it.action).seqLen := by
  obtain ⟨grammar, toFinish, pending, -, hready⟩ := ready_frame cfg it r
  rw [hready] at hspan
  unfold finalReq
  split_ifs with hmode
  · rw [if_pos hmode] at hspan
    exact launch_reach (and_eq_true_iff.mp hmode).1 { hspan with }
  · rw [if_neg hmode] at hspan
    exact hspan.seqLen

theorem final_row (ha : Aligned cfg r (p :: q) extra) (hspan : SameSpan r r₂)
    (hrow : r₂.row = r.row)
    (hno : (cfg.overlap && it.processFirst) = true → prefills it.action = false) :
    ∀ i < (finalReq cfg it r₂).seqLen, i ≤ r.seqLen → (finalReq cfg it r₂).row i =
      (r.originInputIds ++ r.outputIds ++ sampled (p :: q))[i]? := by
  unfold finalReq
  split_ifs with hmode
  · exact launch_row (and_eq_true_iff.mp hmode).1 (hno hmode) hspan hrow ha
  · intro i hi _
    rw [hrow]
    exact ha.row i (hspan.seqLen ▸ hi)

theorem Waits.keep (h : Waits cfg s t) (hjob : SameJob t.req r) :
    Waits cfg s { t with req := r } := by
  refine ⟨fun hsaved => ?_, fun hsaved => ?_⟩
  · obtain ⟨hout, hstart, hslot⟩ := h.fresh hsaved
    exact ⟨hjob.output.trans hout, fun hto => hjob.origin.symm ▸ hstart (hjob.told hto), hslot⟩
  · obtain ⟨hids, hslot⟩ := h.saved hsaved
    refine ⟨?_, hslot⟩
    rwa [hjob.origin, hjob.output]

theorem Going.continues (hg : Going cfg step.it.action t t' cached₁) (hok : TurnOk cfg t)
    (hprocessed : Processed cfg step.it (t'.req.ready cfg step.it).1 (t'.req.ready cfg step.it).2 r₂)
    (hsettled : Settled cfg (finalReq cfg step.it r₂)) (hun : (finalReq cfg step.it r₂).finished = false)
    (hwaits : t'.req.holdsKv = false → Waits cfg s t') :
    TurnOk cfg { t' with req := finalReq cfg step.it r₂ } ∧
      ((finalReq cfg step.it r₂).holdsKv = false →
        Waits cfg s { t' with req := finalReq cfg step.it r₂ }) := by
  obtain ⟨hjob, hholds, hended, hfill⟩ := finalReq_frame cfg step.it r₂
  have hcontinued := hprocessed.continued (hjob.finished.symm.trans hun)
  have hready := hg.job.trans (sameJob_ready cfg step.it t'.req)
  have hkeep := ready_keep cfg step.it t'.req
  have hreach := final_reach hcontinued.span
  have hheld := hholds.trans (hcontinued.holds.trans hkeep.1)
  refine ⟨⟨hsettled, hun, ?_, ?_, ?_, fun hspec hyes => ?_, fun hyes hlt => ?_⟩, fun hno => ?_⟩
  · exact hjob.finishedLen.trans (hcontinued.finishedLen.trans (hready.finishedLen.trans hok.finishedLen))
  · exact hjob.aborts (hcontinued.aborts (hready.aborts hok.aborts))
  · change (finalReq cfg step.it r₂).outputIds.length ≤ (finalReq cfg step.it r₂).params.maxNewTokens
    rw [hjob.output, hjob.params, hcontinued.params]
    rcases hcontinued.room with hsame | hroom
    · rw [hsame, hready.output, hready.params]
      exact hok.room
    · exact hroom
  · exact (hg.plain hspec (hheld.symm.trans hyes)).trans hreach.ge
  · have hspan := hended.trans (hcontinued.span.extendEnd.trans hkeep.2.1)
    have hids := hfill.trans (hcontinued.span.fill.trans hkeep.2.2)
    rw [hspan, hids] at hlt
    rw [hspan]
    exact hg.chunk (hheld.symm.trans hyes) hlt
  · have hfree : t'.req.holdsKv = false := hheld.symm.trans hno
    have hsame := hprocessed.idle (hkeep.1.trans hfree)
    refine (hwaits hfree).keep ((sameJob_ready cfg step.it t'.req).trans ?_)
    rwa [← hsame]

theorem TurnOk.abort (hok : TurnOk cfg t) (hwaits : t.req.holdsKv = false → Waits cfg s t) (abort : Bool) :
    TurnOk cfg (t.abort abort) ∧ ((t.abort abort).req.holdsKv = false → Waits cfg s (t.abort abort)) := by
  have hsettled := hok.settled.abortRequest abort
  unfold Turn.abort
  cases abort with
  | false => exact ⟨hok, hwaits⟩
  | true =>
    rw [if_pos rfl] at hsettled ⊢
    unfold Req.abortRequest at hsettled ⊢
    split_ifs at hsettled with hheld
    · rw [if_pos hheld]
      have hholds := (and_eq_true_iff.mp hheld).1
      refine ⟨{ hok with settled := hsettled, aborts := fun reason hreason => ?_ },
        fun hno => nomatch hholds.symm.trans hno⟩
      exact (Option.some.inj hreason).symm
    · rw [if_neg hheld]
      exact ⟨hok, hwaits⟩

end Iterate

end SparkInfer.Streaming.Turns
