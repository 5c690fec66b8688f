import SparkInfer.Streaming.Turns

/-!
# The slot and the turn

What a slot holds between turns, what a turn keeps while it waits or runs, and how the
scheduler starts it: from the slot, like an ordinary request, or after a retraction from
what it has left in the slot itself.
-/

namespace SparkInfer.Streaming.Turns

open Commit List Turn Option Bool

variable {G : Type} {cfg : Config G}
variable {slot slot' : Slot} {extendEnd n : ℕ} {r r' : Req G} {action : Action} {sources : List ℕ}
variable {token : Token}
variable {s : Session G} {t : Turn G}

/-! ## What a slot holds -/

/-- Every committed position holds what was written for its token. -/
structure Slot.Holds (slot : Slot) (ids : List Token) : Prop where
  le : slot.kvCommittedLen ≤ ids.length
  row : ∀ i < slot.kvCommittedLen, slot.row i = ids[i]?

/-- The slot of a retracted turn: the last token may be missing in the row. -/
structure Slot.Kept (cfg : Config G) (slot : Slot) (ids : List Token) : Prop where
  le : slot.kvCommittedLen ≤ ids.length
  row : ∀ i < slot.kvCommittedLen, i + 1 < ids.length → slot.row i = ids[i]?
  reached : (cfg.spec = true → slot.kvCommittedLen ≤ slot.seqLen) →
    ∀ i < slot.kvCommittedLen, slot.row i = ids[i]?

theorem Slot.Kept.holds {ids : List Token} (h : slot.Kept cfg ids)
    (hreached : cfg.spec = true → slot.kvCommittedLen ≤ slot.seqLen) : slot.Holds ids :=
  ⟨h.le, h.reached hreached⟩

theorem Slot.Holds.mono {ids ids' : List Token} (h : slot.Holds ids) (hle : ids <+: ids') :
    slot.Holds ids' := by
  refine ⟨h.le.trans hle.length_le, fun i hi => ?_⟩
  rw [h.row i hi, prefix_iff_getElem?.mp hle i (hi.trans_le h.le)]
  exact getElem?_eq_getElem (hi.trans_le h.le)

theorem Slot.tryMatchPrefix_spec {pageSize keyLen : ℕ} {cut : Cut}
    (h : slot.tryMatchPrefix pageSize cut keyLen = some (slot', n)) :
    n ≤ slot.kvCommittedLen ∧ n ≤ keyLen ∧ slot' = slot.freeTail n := by
  unfold Slot.tryMatchPrefix at h
  split at h
  · cases h
    exact ⟨min_le_left _ _, min_le_right _ _, rfl⟩
  · cases h
    have hle := Nat.div_mul_le_self (min slot.kvCommittedLen keyLen) pageSize
    exact ⟨hle.trans (min_le_left _ _), hle.trans (min_le_right _ _), rfl⟩
  · cases h

/-! ## The turn of a session -/

structure TurnOk (cfg : Config G) (t : Turn G) : Prop where
  settled : Settled cfg t.req
  unfinished : t.req.finished = false
  finishedLen : t.req.finishedLen = none
  aborts : OnlyAborts t.req
  room : t.req.outputIds.length ≤ t.req.params.maxNewTokens
  /-- Without speculation there is a slot only for what is written. -/
  plain : cfg.spec = false → t.req.holdsKv = true → t.kvAllocatedLen ≤ t.req.seqLen
  chunk : t.req.holdsKv = true → t.req.extendEnd < t.req.fillIds.length → t.kvAllocatedLen ≤ t.req.extendEnd

/-- A turn that waits to be matched with the slot. -/
structure Waits (cfg : Config G) (s : Session G) (t : Turn G) : Prop where
  fresh : t.saved = false → t.req.outputIds = [] ∧ (t.req.toFinish = none → s.lastIds <+: t.req.originInputIds) ∧
    ∀ slot ∈ s.slot, slot.Holds s.lastIds
  saved : t.saved = true → s.lastIds = t.req.originInputIds ++ t.req.outputIds ∧
    ∀ slot ∈ s.slot, slot.Kept cfg s.lastIds

def Session.Ok (cfg : Config G) (s : Session G) : Prop :=
  match s.turn with
  | none => ∀ slot ∈ s.slot, slot.Holds s.lastIds
  | some t => TurnOk cfg t ∧ (t.req.holdsKv = false → Waits cfg s t)

theorem TurnOk.refresh (h : TurnOk cfg t) (hholds : t.req.holdsKv = false) :
    t.req.inflightMiddleChunks = 0 ∧ FillOk t.req ∧
      t.req.refreshFillIds.fillIds = t.req.originInputIds ++ t.req.outputIds := by
  obtain ⟨-, -, hinflight, hfill⟩ := h.settled.phase.of_free (by
    rw [hholds, h.unfinished]
    decide)
  exact ⟨hinflight, hfill, by rw [refreshFillIds_eq hfill]⟩

theorem Waits.matched {cut : Cut} (h : Waits cfg s t) (hok : TurnOk cfg t)
    (hholds : t.req.holdsKv = false) (hto : t.req.toFinish = none) (hslot : s.slot = some slot)
    (hmatch : t.tryMatchPrefix cfg cut slot = some (slot', n)) :
    ∀ i < n, i < (t.req.originInputIds ++ t.req.outputIds).length ∧
      slot'.row i = (t.req.originInputIds ++ t.req.outputIds)[i]? := by
  intro i hi
  obtain ⟨-, -, hrefresh⟩ := hok.refresh hholds
  unfold tryMatchPrefix at hmatch
  rw [hrefresh] at hmatch
  obtain ⟨hcommitted, hkey, rfl⟩ := Slot.tryMatchPrefix_spec hmatch
  have hlt : i + 1 < (t.req.originInputIds ++ t.req.outputIds).length := by
    omega
  refine ⟨by omega, ?_⟩
  cases hsaved : t.saved with
  | false =>
    obtain ⟨-, hstart, hrow⟩ := h.fresh hsaved
    have hall := (hrow slot hslot).mono ((hstart hto).trans (prefix_append _ t.req.outputIds))
    exact hall.row i (hi.trans_le hcommitted)
  | true =>
    obtain ⟨hids, hrow⟩ := h.saved hsaved
    rw [hids] at hrow
    exact (hrow slot hslot).row i (hi.trans_le hcommitted) hlt

theorem Waits.holds (h : Waits cfg s t) (hslot : s.slot = some slot)
    (hreached : cfg.spec = true → slot.kvCommittedLen ≤ slot.seqLen) : slot.Holds s.lastIds := by
  cases hsaved : t.saved with
  | false => exact (h.fresh hsaved).2.2 slot hslot
  | true => exact ((h.saved hsaved).2 slot hslot).holds hreached

theorem Waits.cut {cut : Cut} (h : Waits cfg s t) (hok : TurnOk cfg t)
    (hholds : t.req.holdsKv = false) (hslot : s.slot = some slot)
    (hmatch : t.tryMatchPrefix cfg cut slot = some (slot', n)) :
    Waits cfg { s with slot := some slot' } t := by
  obtain ⟨-, -, hrefresh⟩ := hok.refresh hholds
  unfold tryMatchPrefix at hmatch
  rw [hrefresh] at hmatch
  obtain ⟨hcommitted, hkey, rfl⟩ := Slot.tryMatchPrefix_spec hmatch
  have hle : (slot.freeTail n).kvCommittedLen ≤ slot.kvCommittedLen := min_le_left _ _
  refine ⟨fun hsaved => ?_, fun hsaved => ?_⟩
  · obtain ⟨hout, hstart, hrow⟩ := h.fresh hsaved
    refine ⟨hout, hstart, fun slot' hslot' => ?_⟩
    cases hslot'
    exact ⟨hle.trans (hrow slot hslot).le, fun i hi => (hrow slot hslot).row i (hi.trans_le hle)⟩
  obtain ⟨hids, hrow⟩ := h.saved hsaved
  refine ⟨hids, fun slot' hslot' => ?_⟩
  cases hslot'
  have hkept := hrow slot hslot
  refine ⟨hle.trans hkept.le, fun i hi => hkept.row i (hi.trans_le hle), fun _ i hi => ?_⟩
  -- the key leaves out the last token
  have hin : i < n := lt_of_lt_of_le hi (min_le_right _ _)
  refine hkept.row i (hi.trans_le hle) ?_
  rw [hids]
  omega

/-! ## The end of a turn -/

theorem Turn.cacheFinishedReq_le (cfg : Config G) (floored : Bool) (t : Turn G) :
    (t.cacheFinishedReq cfg floored).1.kvCommittedLen ≤
        t.req.originInputIds.length + t.req.finishedLen.getD t.req.outputIds.length ∧
      (t.cacheFinishedReq cfg floored).1.kvCommittedLen ≤ t.kvAllocatedLen :=
  ⟨min_le_left _ _, (min_le_right _ _).trans (min_le_left _ _)⟩

/-- A retracted turn leaves its tokens in the slot; the last of them may not be written. -/
theorem TurnOk.retracted (h : TurnOk cfg t) (hholds : t.req.holdsKv = true) (floored : Bool) :
    (t.cacheFinishedReq cfg floored).2 = t.req.originInputIds ++ t.req.outputIds ∧
      (t.cacheFinishedReq cfg floored).1.Kept cfg (t.req.originInputIds ++ t.req.outputIds) := by
  have hids : (t.cacheFinishedReq cfg floored).2 = t.req.originInputIds ++ t.req.outputIds := by
    simp only [cacheFinishedReq, h.finishedLen, getD_none, take_length, take_of_length_le h.room]
  obtain ⟨htarget, halloc⟩ := t.cacheFinishedReq_le cfg floored
  rw [h.finishedLen, getD_none, ← length_append] at htarget
  refine ⟨hids, ?_⟩
  have hrow : (t.cacheFinishedReq cfg floored).1.row = t.req.row := rfl
  have hseq : (t.cacheFinishedReq cfg floored).1.seqLen = t.req.seqLen := rfl
  generalize (t.cacheFinishedReq cfg floored).1 = slot at htarget halloc hrow hseq ⊢
  cases h.settled.phase with
  | done holds | waiting holds => simp [holds] at hholds
  | chunked chunk middle =>
    have hall : ∀ i < slot.kvCommittedLen, slot.row i = (t.req.originInputIds ++ t.req.outputIds)[i]? := by
      intro i hi
      rw [hrow, chunk.row i (hi.trans_le (halloc.trans (h.chunk hholds middle))), chunk.fill]
    exact ⟨htarget, fun i hi _ => hall i hi, fun _ => hall⟩
  | running run =>
    obtain ⟨mids, rest, -, -, -, ha⟩ := run.aligned
    have hlen := ha.length
    rw [length_append] at hlen
    have hbelow : ∀ i < slot.kvCommittedLen, i < t.req.seqLen →
        slot.row i = (t.req.originInputIds ++ t.req.outputIds)[i]? := by
      intro i hi hseq
      rw [hrow, ha.row i hseq, List.getElem?_append_left (hi.trans_le htarget)]
    refine ⟨htarget, fun i hi hlast => hbelow i hi (by omega), fun hreached i hi => hbelow i hi ?_⟩
    cases hspec : cfg.spec with
    | false => exact hi.trans_le (halloc.trans (h.plain hspec hholds))
    | true => exact hseq ▸ hi.trans_le (hreached hspec)

/-! ## Scheduling -/

/-- The turn is scheduled, as `t'`. -/
structure Going (cfg : Config G) (action : Action) (t t' : Turn G) (cached' : List Handed) : Prop where
  plan : Planned cfg t'.req t'.req.pending.toList action
  pending : t'.req.pending = t.req.pending
  job : SameJob t.req t'.req
  sound : ∀ h ∈ cached', h.Sound
  /-- Without speculation the launch reaches every slot. -/
  plain : cfg.spec = false → t'.req.holdsKv = true → t'.kvAllocatedLen ≤ (t'.req.launch cfg action).seqLen
  chunk : t'.req.holdsKv = true → t'.req.extendEnd < t'.req.fillIds.length → t'.kvAllocatedLen ≤ t'.req.extendEnd

theorem prepareForExtend_end (h : r.prepareForExtend extendEnd = some r') :
    r'.extendEnd = extendEnd ∧ r'.holdsKv = true := by
  unfold Req.prepareForExtend at h
  split at h
  · cases h
    exact ⟨rfl, rfl⟩
  · cases h

section Scheduling

variable {s' : Session G} {t t' : Turn G} {cached cached' : List Handed} {step : Step}

theorem TurnOk.planned (hok : TurnOk cfg t) (hsound : ∀ h ∈ cached, h.Sound)
    (h : t.req.schedule cfg cached action = some (r', cached')) :
    Planned cfg r' r'.pending.toList action ∧ r'.pending = t.req.pending ∧ ∀ h ∈ cached', h.Sound := by
  obtain ⟨hplan, hpending, hsound'⟩ := planned_schedule hsound hok.settled.phase
    (fun hholds hun => by rw [hok.settled.free hholds hun]; rfl)
    (fun hno => by rw [hok.settled.sync hno]; rfl) h
  exact ⟨hpending.symm ▸ hplan, hpending, hsound'⟩

theorem scheduleRaw_inv {alloc : ℕ}
    (h : t.scheduleRaw cfg s cached action alloc = some (.goes s' t' cached')) :
    ∃ r, t.req.schedule cfg cached action = some (r, cached') ∧ s' = s ∧
      t' = { t with req := r, kvAllocatedLen := alloc } := by
  unfold scheduleRaw at h
  split at h
  · cases h
  · rename_i r cached₁ hschedule
    cases h
    exact ⟨r, hschedule, rfl, rfl⟩

theorem scheduleChunk_inv (h : t.scheduleChunk s cached r extendEnd = some (.goes s' t' cached')) :
    ∃ r', r.prepareForExtend extendEnd = some r' ∧ s' = s ∧ cached' = cached ∧
      t' = { t with req := r', kvAllocatedLen := extendEnd } := by
  unfold scheduleChunk at h
  split at h
  · cases h
  · rename_i r' hprepare
    cases h
    exact ⟨r', hprepare, rfl, rfl, rfl⟩

theorem TurnOk.goes_admitted (hok : TurnOk cfg t) (hsound : ∀ h ∈ cached, h.Sound)
    (h : t.scheduleRaw cfg s cached (.admitted sources extendEnd token) extendEnd =
      some (.goes s' t' cached')) :
    Going cfg (.admitted sources extendEnd token) t t' cached' ∧ t'.req.holdsKv = true := by
  obtain ⟨r, hschedule, rfl, rfl⟩ := scheduleRaw_inv h
  obtain ⟨hplan, hpending, hsound'⟩ := hok.planned hsound hschedule
  dsimp only [Req.schedule] at hschedule
  split at hschedule
  · cases hschedule
  obtain ⟨row, -, hschedule⟩ := bind_eq_some_iff.mp hschedule
  obtain ⟨r₁, hprepare, hschedule⟩ := bind_eq_some_iff.mp hschedule
  cases hschedule
  obtain ⟨hend, hholds⟩ := prepareForExtend_end hprepare
  have hjob := SameJob.prepareForExtend hprepare
  have hrefresh : SameJob t.req { t.req.refreshFillIds with row := row, prefixLen := sources.length } :=
    (SameJob.refresh t.req).trans ⟨rfl, rfl, rfl, rfl, rfl, id, id⟩
  exact ⟨⟨hplan, hpending, hrefresh.trans hjob, hsound', fun _ _ => hend.ge, fun _ _ => hend.ge⟩, hholds⟩

def decodes : Action → Bool
  | .decode _ | .mixed _ | .verify _ _ _ => true
  | _ => false

theorem schedule_decode_inv (haction : decodes action = true)
    (h : r.schedule cfg cached action = some (r', cached')) :
    r.isRunning = true ∧ SameJob r r' ∧ r'.seqLen = r.seqLen := by
  have hjob := SameJob.prepareForDecode cfg r
  have hseq : (r.prepareForDecode cfg).seqLen = r.seqLen := by
    unfold Req.prepareForDecode
    split <;> rfl
  cases action with
  | idle | admitted | chunk | park | retract | abortChunked => cases haction
  | decode token =>
    dsimp only [Req.schedule] at h
    split at h
    · rename_i hguard
      simp only [and_eq_true] at hguard
      cases h
      exact ⟨hguard.1, hjob, hseq⟩
    · cases h
  | verify drafts accepted bonus =>
    dsimp only [Req.schedule] at h
    split at h
    · rename_i hguard
      simp only [and_eq_true] at hguard
      cases h
      exact ⟨hguard.1.1, hjob, hseq⟩
    · cases h
  | mixed token =>
    dsimp only [Req.schedule] at h
    split at h
    · rename_i hguard
      cases h
      have hrefresh : (r.prepareForDecode cfg).refreshFillIds.seqLen = (r.prepareForDecode cfg).seqLen := by
        unfold Req.refreshFillIds
        dsimp only
        split <;> rfl
      exact ⟨hguard, (hjob.trans (.refresh _)).trans ⟨rfl, rfl, rfl, rfl, rfl, id, id⟩, hrefresh.trans hseq⟩
    · cases h

theorem planned_running {q : List Pending} (haction : decodes action = true)
    (h : Planned cfg r q action) : (∃ extra, Running cfg r q extra) ∧
      (cfg.spec = false → (r.launch cfg action).seqLen = r.seqLen + 1) := by
  cases action with
  | idle | admitted | chunk | park | retract | abortChunked => cases haction
  | decode token => exact ⟨⟨1, h.1⟩, fun _ => rfl⟩
  | verify drafts accepted bonus =>
    exact ⟨⟨0, h.1⟩, fun hspec => nomatch hspec.symm.trans h.2.1⟩
  | mixed token =>
    refine ⟨⟨_, h⟩, fun hspec => ?_⟩
    have htail : r.mixedTail cfg = (r.seqLen, r.lastToken) := if_neg (by rw [hspec]; exact false_ne_true)
    dsimp only [Req.launch]
    rw [htail]
    rfl

theorem TurnOk.goes_decode (hok : TurnOk cfg t) (hsound : ∀ h ∈ cached, h.Sound)
    {reserve : ℕ} (haction : decodes action = true)
    (h : t.scheduleRaw cfg s cached action (t.allocForDecode cfg reserve) = some (.goes s' t' cached')) :
    Going cfg action t t' cached' ∧ t'.req.holdsKv = true := by
  obtain ⟨r, hschedule, rfl, rfl⟩ := scheduleRaw_inv h
  obtain ⟨hplan, hpending, hsound'⟩ := hok.planned hsound hschedule
  obtain ⟨hrunning, hjob, hseq⟩ := schedule_decode_inv haction hschedule
  obtain ⟨⟨extra, hrun⟩, hlaunch⟩ := planned_running haction hplan
  simp only [Req.isRunning, and_eq_true] at hrunning
  refine ⟨⟨hplan, hpending, hjob, hsound', fun hspec _ => ?_, fun _ hlt => absurd hrun.ended hlt.ne⟩, hrun.holds⟩
  rw [hlaunch hspec, hseq, allocForDecode, if_neg (by rw [hspec]; decide)]
  exact Nat.succ_le_succ (hok.plain hspec hrunning.1.1)

theorem Waits.goes_matched (h : Waits cfg s t) (hok : TurnOk cfg t)
    (hholds : t.req.holdsKv = false) (hto : t.req.toFinish = none) (hslot : s.slot = some slot)
    (hmatch : t.tryMatchPrefix cfg step.cut slot = some (slot', n)) (hsound : ∀ h ∈ cached, h.Sound)
       {s₁ : Session G}
    (hgoes : t.scheduleChunk s₁ cached { t.req.refreshFillIds with row := slot'.row, prefixLen := n }
      extendEnd = some (.goes s' t' cached')) :
    Going cfg (.admitted sources extendEnd token) t t' cached' ∧ t'.req.holdsKv = true := by
  obtain ⟨r, hprepare, rfl, rfl, rfl⟩ := scheduleChunk_inv hgoes
  obtain ⟨hinflight, hfill, -⟩ := hok.refresh hholds
  obtain ⟨hchunk, hpending⟩ := planned_first hok.unfinished hinflight hfill
    (h.matched hok hholds hto hslot hmatch) hprepare
  obtain ⟨hend, hheld⟩ := prepareForExtend_end hprepare
  have hjob := SameJob.prepareForExtend hprepare
  have hrefresh : SameJob t.req { t.req.refreshFillIds with row := slot'.row, prefixLen := n } :=
    (SameJob.refresh t.req).trans ⟨rfl, rfl, rfl, rfl, rfl, id, id⟩
  have hnone : t.req.pending = none := hok.settled.free hholds hok.unfinished
  refine ⟨⟨?_, hpending, hrefresh.trans hjob, hsound, fun _ _ => hend.ge, fun _ _ => hend.ge⟩, hheld⟩
  rwa [hpending, hnone]

variable (hok : TurnOk cfg t)
include hok

theorem stash_spec (hchunked : t.req.isChunked = true) (caches : Bool) :
    Chunked (t.stash caches) t.req.pending.toList t.req.extendEnd 0 ∧
      (t.stash caches).extendEnd = t.req.extendEnd ∧ (t.stash caches).fillIds = t.req.fillIds ∧
      (t.stash caches).pending = t.req.pending ∧ SameJob t.req (t.stash caches) ∧
      (t.stash caches).seqLen = t.req.seqLen := by
  obtain ⟨hchunk, -⟩ := hok.settled.phase.of_chunked hchunked
  unfold stash
  split
  · exact ⟨{ hchunk with below := le_rfl }, rfl, rfl, rfl, ⟨rfl, rfl, rfl, rfl, rfl, id, id⟩, rfl⟩
  · exact ⟨hchunk, rfl, rfl, rfl, .refl _, rfl⟩

theorem TurnOk.goes_chunk (hsound : ∀ h ∈ cached, h.Sound) (hchunked : t.req.isChunked = true)
    {caches : Bool}
    (h : t.scheduleChunk s cached (t.stash caches).refreshFillIds extendEnd = some (.goes s' t' cached')) :
    Going cfg (.chunk caches sources extendEnd token) t t' cached' ∧ t'.req.holdsKv = true := by
  obtain ⟨r, hprepare, rfl, rfl, rfl⟩ := scheduleChunk_inv h
  obtain ⟨hchunk, hended, -, hpending, hjob, -⟩ := stash_spec hok hchunked caches
  obtain ⟨hplan, hkeep⟩ := planned_next hchunk hended hprepare
  obtain ⟨hend, hheld⟩ := prepareForExtend_end hprepare
  refine ⟨⟨?_, hkeep.trans hpending, (hjob.trans (.refresh _)).trans (.prepareForExtend hprepare), hsound,
    fun _ _ => hend.ge, fun _ _ => hend.ge⟩, hheld⟩
  rwa [hkeep, hpending]

theorem TurnOk.goes_park (hsound : ∀ h ∈ cached, h.Sound) (hchunked : t.req.isChunked = true)
    (caches : Bool) (sources : List ℕ) :
    Going cfg (.park caches sources) t { t with req := t.stash caches } cached ∧
      (t.stash caches).holdsKv = true := by
  obtain ⟨hchunk, hended, hfill, hpending, hjob, hseq⟩ := stash_spec hok hchunked caches
  obtain ⟨hchunk₀, hmiddle⟩ := hok.settled.phase.of_chunked hchunked
  refine ⟨⟨?_, hpending, hjob, hsound, fun hspec _ => ?_, fun _ hlt => ?_⟩, hchunk.holds⟩
  · rw [hpending]
    exact .chunked (hended.symm ▸ hchunk) (by rwa [hended, hfill])
  · exact (hok.plain hspec hchunk₀.holds).trans hseq.ge
  · exact (hok.chunk hchunk₀.holds hmiddle).trans hended.ge

theorem TurnOk.goes_retract (hsound : ∀ h ∈ cached, h.Sound) (hholds : t.req.holdsKv = true)
    {slot : Slot} {ids : List Token} (hcache : t.cacheFinishedReq cfg step.floored = (slot, ids))
    (dropOutput : Bool) : Going cfg (.retract dropOutput) t t.resetForRetract cached ∧
      Waits cfg { s with lastIds := ids, detached := false, slot := some slot } t.resetForRetract := by
  have hheld : (t.req.holdsKv && !t.req.finished) = true := by
    rw [hholds, hok.unfinished]
    rfl
  have hplan := planned_retract hok.settled.phase (fun hno => by rw [hok.settled.sync hno]; rfl) hheld false
  obtain ⟨hids, hkept⟩ := hok.retracted hholds step.floored
  rw [hcache] at hids hkept
  unfold resetForRetract
  rw [releaseKvCache_fst] at hplan ⊢
  refine ⟨⟨hplan, rfl, ⟨rfl, rfl, rfl, rfl, rfl, id, id⟩, hsound, (fun _ h => nomatch h), (fun h => nomatch h)⟩,
    (fun h => nomatch h), fun _ => ⟨hids, fun slot' hslot' => ?_⟩⟩
  cases hslot'
  have hids : ids = t.req.originInputIds ++ t.req.outputIds := hids
  rwa [hids]

theorem schedule_goes (hwaits : t.req.holdsKv = false → Waits cfg s t)
    (hsound : ∀ h ∈ cached, h.Sound)
    (h : s.schedule cfg step t cached = some (.goes s' t' cached')) :
    Going cfg step.it.action t t' cached' ∧ (t'.req.holdsKv = false → Waits cfg s' t') := by
  have hheld : ∀ {action}, Going cfg action t t' cached' ∧ t'.req.holdsKv = true →
      Going cfg action t t' cached' ∧ (t'.req.holdsKv = false → Waits cfg s' t') := fun h =>
    ⟨h.1, fun hno => nomatch h.2.symm.trans hno⟩
  unfold Session.schedule at h
  split at h
  all_goals
    rename_i haction
    rw [haction]
  · cases h
    exact ⟨⟨hok.settled.phase, rfl, .refl _, hsound, hok.plain, hok.chunk⟩, hwaits⟩
  · split at h
    · cases h
    rename_i hfree
    rw [not_eq_true] at hfree
    split at h
    · exact hheld (hok.goes_admitted hsound h)
    rename_i slot hslot
    split_ifs at h with hto
    · cases h
    rw [not_eq_true, isSome_eq_false_iff, isNone_iff_eq_none] at hto
    split at h
    · exact hheld (hok.goes_admitted hsound h)
    · rename_i slot' n hmatch
      exact hheld ((hwaits hfree).goes_matched hok hfree hto hslot hmatch hsound h)
  · split at h
    · rename_i hchunked
      exact hheld (hok.goes_chunk hsound hchunked h)
    · cases h
  · split at h
    · rename_i hchunked
      cases h
      exact hheld (hok.goes_park hsound hchunked _ _)
    · cases h
  · exact hheld (hok.goes_decode hsound rfl h)
  · exact hheld (hok.goes_decode hsound rfl h)
  · exact hheld (hok.goes_decode hsound rfl h)
  · rename_i dropOutput
    split at h
    · rename_i hholds
      dsimp only at h
      split at h
      · cases h
      cases h
      have hretracts := @TurnOk.goes_retract _ cfg s t cached step
      obtain ⟨hgoing, hwaits'⟩ := hretracts hok hsound hholds rfl dropOutput
      exact ⟨hgoing, fun _ => hwaits'⟩
    · cases h
  · split at h <;> cases h

theorem schedule_leaves (hwaits : t.req.holdsKv = false → Waits cfg s t)
    (h : s.schedule cfg step t cached = some (.leaves s'))
    (hreached : cfg.spec = true → s'.turn = none → ∀ slot ∈ s'.slot, slot.kvCommittedLen ≤ slot.seqLen) :
    s'.Ok cfg := by
  have hraw : ∀ {s : Session G} {action alloc}, t.scheduleRaw cfg s cached action alloc ≠ some (.leaves s') := by
    intro s action alloc h
    unfold scheduleRaw at h
    split at h <;> cases h
  have hchunk : ∀ {s : Session G} {r extendEnd}, t.scheduleChunk s cached r extendEnd ≠ some (.leaves s') := by
    intro s r extendEnd h
    unfold scheduleChunk at h
    split at h <;> cases h
  unfold Session.schedule at h
  split at h
  · cases h
  · split at h
    · cases h
    rename_i hfree
    rw [not_eq_true] at hfree
    split at h
    · exact absurd h hraw
    split at h
    · cases h
      exact fun slot hslot => (hwaits hfree).holds hslot fun hspec => hreached hspec rfl slot hslot
    · split at h
      · exact absurd h hraw
      · exact absurd h hchunk
  · split at h
    · exact absurd h hchunk
    · cases h
  · split at h <;> cases h
  · exact absurd h hraw
  · exact absurd h hraw
  · exact absurd h hraw
  · split at h
    · rename_i hholds
      dsimp only at h
      split at h
      · cases h
        intro slot hslot
        obtain ⟨hids, hkept⟩ := hok.retracted hholds step.floored
        cases hslot
        have hholds := hkept.holds fun hspec => hreached hspec rfl _ rfl
        exact ⟨hids.symm ▸ hholds.le, hids.symm ▸ hholds.row⟩
      · cases h
    · cases h
  · split at h
    · cases h
      exact fun _ hslot => nomatch hslot
    · cases h

end Scheduling

end SparkInfer.Streaming.Turns
