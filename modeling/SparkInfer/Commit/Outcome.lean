import SparkInfer.Commit.Ready

/-!
# How a result leaves the output

What a step does to the tokens of a request: scheduling and launching leave them alone,
a result appends its run.  A request that goes on has room for more tokens, and one that
ends by itself counts no more tokens than it has and than it may have.
-/

namespace SparkInfer.Commit

open List Req Option Bool

variable {G : Type} {cfg : Config G} {r r' : Req G} {cached cached' : List Handed} {v : Verdict}
variable {tokens : List Token} {extra n : ℕ} {gr : Grammar G}
variable {p : Pending} {str : StrOutcome}

def StrOutcome.located (n : ℕ) : StrOutcome → Bool
  | .matched _ finishedLen => finishedLen.any (· ≤ n)
  | _ => true

/-- A request is told to finish only by an abort. -/
def OnlyAborts (r : Req G) : Prop := ∀ reason ∈ r.toFinish, reason = .abort

structure SameJob (r r' : Req G) : Prop where
  params : r'.params = r.params
  origin : r'.originInputIds = r.originInputIds
  output : r'.outputIds = r.outputIds
  reason : r'.finishedReason = r.finishedReason
  finishedLen : r'.finishedLen = r.finishedLen
  aborts : OnlyAborts r → OnlyAborts r'
  told : r'.toFinish = none → r.toFinish = none

namespace SameJob

theorem refl (r : Req G) : SameJob r r := ⟨rfl, rfl, rfl, rfl, rfl, id, id⟩

theorem trans {r'' : Req G} (h : SameJob r r') (h' : SameJob r' r'') : SameJob r r'' :=
  ⟨h'.params.trans h.params, h'.origin.trans h.origin, h'.output.trans h.output, h'.reason.trans h.reason,
    h'.finishedLen.trans h.finishedLen, fun ha => h'.aborts (h.aborts ha), fun hn => h.told (h'.told hn)⟩

theorem finished (h : SameJob r r') : r'.finished = r.finished := by
  simp only [Req.finished, h.reason]

theorem of_told (committed : ℕ) (grammar : Option G) {toFinish : Option FinishReason}
    (h : toFinish = r.toFinish ∨ toFinish = some .abort) :
    SameJob r { r with kvCommittedLen := committed, grammar := grammar, toFinish := toFinish } := by
  refine ⟨rfl, rfl, rfl, rfl, rfl, fun ha reason hreason => ?_, fun hnone => ?_⟩
  · have hreason : toFinish = some reason := hreason
    rcases h with rfl | rfl
    · exact ha reason hreason
    · exact (some.inj hreason).symm
  rcases h with rfl | rfl
  · exact hnone
  · cases hnone

theorem release (r : Req G) (isInsert stripped : Bool) : SameJob r (r.releaseKvCache isInsert stripped).1 := by
  rw [releaseKvCache_fst]
  exact ⟨rfl, rfl, rfl, rfl, rfl, id, id⟩

theorem cacheUnfinished {sources : List ℕ} (h : r.cacheUnfinishedReq cfg cached sources = some (r', cached')) :
    SameJob r r' := by
  unfold cacheUnfinishedReq at h
  dsimp only at h
  split at h
  · cases h
  · cases h
    exact ⟨rfl, rfl, rfl, rfl, rfl, id, id⟩

theorem refresh (r : Req G) : SameJob r r.refreshFillIds := by
  unfold refreshFillIds
  dsimp only
  split <;> exact ⟨rfl, rfl, rfl, rfl, rfl, id, id⟩

theorem prepareForExtend {extendEnd : ℕ} (h : r.prepareForExtend extendEnd = some r') : SameJob r r' := by
  unfold Req.prepareForExtend at h
  split at h
  · cases h
    exact ⟨rfl, rfl, rfl, rfl, rfl, id, id⟩
  · cases h

theorem prepareForDecode (cfg : Config G) (r : Req G) : SameJob r (r.prepareForDecode cfg) := by
  unfold Req.prepareForDecode
  split <;> exact ⟨rfl, rfl, rfl, rfl, rfl, id, id⟩

theorem launch (cfg : Config G) (r : Req G) (action : Action) : SameJob r (r.launch cfg action) := by
  cases action <;> exact ⟨rfl, rfl, rfl, rfl, rfl, id, id⟩

end SameJob

structure SameSpan (r r' : Req G) : Prop where
  fill : r'.fillIds = r.fillIds
  extendEnd : r'.extendEnd = r.extendEnd
  seqLen : r'.seqLen = r.seqLen
  lastToken : r'.lastToken = r.lastToken

theorem SameSpan.refl (r : Req G) : SameSpan r r := ⟨rfl, rfl, rfl, rfl⟩

theorem SameSpan.trans {r'' : Req G} (h : SameSpan r r') (h' : SameSpan r' r'') : SameSpan r r'' :=
  ⟨h'.fill.trans h.fill, h'.extendEnd.trans h.extendEnd, h'.seqLen.trans h.seqLen, h'.lastToken.trans h.lastToken⟩

/-! What the grammar changes. -/

theorem accept_frame : ∃ grammar toFinish, (toFinish = r.toFinish ∨ toFinish = some .abort) ∧
      (r.acceptGrammarTokens gr tokens).1 = { r with grammar := grammar, toFinish := toFinish } := by
  unfold acceptGrammarTokens
  split
  · exact ⟨r.grammar, r.toFinish, .inl rfl, rfl⟩
  refine ⟨_, _, ?_, rfl⟩
  split
  · exact .inr rfl
  · exact .inl rfl

theorem advance_frame (gr : Grammar G) (r : Req G) (p : Pending) : ∃ grammar toFinish,
    (toFinish = r.toFinish ∨ toFinish = some .abort) ∧
      (r.advanceGrammarFsm gr p).1 = { r with grammar := grammar, toFinish := toFinish } := by
  have hsame : ∃ grammar toFinish, (toFinish = r.toFinish ∨ toFinish = some .abort) ∧
      r = { r with grammar := grammar, toFinish := toFinish } := ⟨r.grammar, r.toFinish, .inl rfl, rfl⟩
  unfold advanceGrammarFsm
  split
  · exact hsame
  split
  · exact hsame
  · split
    · exact hsame
    · exact accept_frame
  · split
    · exact hsame
    · exact accept_frame

theorem counted_frame (h : r.counted cfg p = some (r', tokens)) :
    ∃ committed grammar toFinish, (toFinish = r.toFinish ∨ toFinish = some .abort) ∧
      r' = { r with kvCommittedLen := committed, grammar := grammar, toFinish := toFinish } := by
  unfold counted at h
  split at h
  · unfold resolveSpecV2Tokens at h
    obtain ⟨grammar, toFinish, htold, hadvance⟩ := advance_frame cfg.grammar r p
    dsimp only at h
    rw [hadvance] at h
    split at h
    · cases h
      exact ⟨_, grammar, toFinish, htold, rfl⟩
    split at h
    · cases h
    · cases h
      exact ⟨_, grammar, toFinish, htold, rfl⟩
  · cases h
    exact ⟨_, r.grammar, r.toFinish, .inl rfl, rfl⟩

theorem sameJob_counted (h : r.counted cfg p = some (r', tokens)) : SameJob r r' := by
  obtain ⟨committed, grammar, toFinish, htold, rfl⟩ := counted_frame h
  exact .of_told committed grammar htold

/-- What is processed next is launched already, unless the overlap is off for the batch. -/
theorem ready_frame (cfg : Config G) (it : Iteration) (r : Req G) : ∃ grammar toFinish pending,
    (toFinish = r.toFinish ∨ toFinish = some .abort) ∧
      (r.ready cfg it).1 = { (if cfg.overlap && it.processFirst then r else r.launch cfg it.action) with
        grammar := grammar, toFinish := toFinish, pending := pending } := by
  have hlaunch : ∃ pending, launch cfg { r with pending := none } it.action =
      { r.launch cfg it.action with pending := pending } := by
    cases it.action <;> exact ⟨_, rfl⟩
  have htold : (r.launch cfg it.action).toFinish = r.toFinish := by
    cases it.action <;> rfl
  obtain ⟨pending, hlaunch⟩ := hlaunch
  unfold ready
  split
  · rename_i hoverlap
    split
    · rename_i hfirst
      rw [hoverlap, hfirst]
      exact ⟨_, _, _, .inl rfl, rfl⟩
    rename_i hfirst
    rw [hoverlap, not_eq_true _ |>.mp hfirst]
    rw [hlaunch]
    split
    · split
      · obtain ⟨grammar, toFinish, hto, hadvance⟩ :=
          advance_frame cfg.grammar { r.launch cfg it.action with pending := pending } ‹_›
        exact ⟨grammar, toFinish, _, hto.imp_left (·.trans htold), hadvance⟩
      · exact ⟨_, _, _, .inl htold, rfl⟩
    · exact ⟨_, _, _, .inl htold, rfl⟩
  · rename_i hoverlap
    rw [not_eq_true _ |>.mp hoverlap]
    exact ⟨_, _, _, .inl htold, rfl⟩

theorem sameJob_ready (cfg : Config G) (it : Iteration) (r : Req G) : SameJob r (r.ready cfg it).1 := by
  obtain ⟨grammar, toFinish, pending, htold, hready⟩ := ready_frame cfg it r
  have hjob := SameJob.of_told r.kvCommittedLen grammar htold
  rw [hready]
  split
  · exact hjob.trans ⟨rfl, rfl, rfl, rfl, rfl, id, id⟩
  · cases it.action <;> exact hjob.trans ⟨rfl, rfl, rfl, rfl, rfl, id, id⟩

theorem ready_keep (cfg : Config G) (it : Iteration) (r : Req G) :
    (r.ready cfg it).1.holdsKv = r.holdsKv ∧ (r.ready cfg it).1.extendEnd = r.extendEnd ∧
      (r.ready cfg it).1.fillIds = r.fillIds := by
  obtain ⟨grammar, toFinish, pending, -, hready⟩ := ready_frame cfg it r
  rw [hready]
  split
  · exact ⟨rfl, rfl, rfl⟩
  · cases it.action <;> exact ⟨rfl, rfl, rfl⟩

/-! ## The end of a request -/

theorem cap_counts {r : Req G} {len d : ℕ} (hn : r.finishedLen = some n) (hle : n ≤ len) :
    r.capFinishedLenAtMaxNewTokens.finishedLen.getD d ≤ len ∧
      r.capFinishedLenAtMaxNewTokens.finishedLen.getD d ≤ r.params.maxNewTokens := by
  unfold capFinishedLenAtMaxNewTokens
  rw [hn]
  dsimp only
  split_ifs with hgt
  · exact ⟨hgt.le.trans hle, le_rfl⟩
  · rw [hn]
    exact ⟨hle, not_lt.mp hgt⟩

theorem newAcceptedTokens_length_le (r : Req G) (n : ℕ) :
    (r.newAcceptedTokens n).length ≤ r.outputIds.length := by
  obtain ⟨k, -, hdrop, -⟩ := r.newAcceptedTokens_eq_drop n
  rw [hdrop, length_drop]
  exact Nat.sub_le _ _

theorem finishByTokens_counts {d : ℕ} (hlen : r.finishedLen = none)
    (htokens : tokens.length ≤ r.outputIds.length) (hd : d = r.outputIds.length)
    (hended : (r.finishByTokens gr tokens) ≠ r) :
    (r.finishByTokens gr tokens).finishedLen.getD d ≤ r.outputIds.length ∧
      (r.finishByTokens gr tokens).finishedLen.getD d ≤ r.params.maxNewTokens := by
  revert hended
  unfold finishByTokens
  split
  · rename_i r₁ htoken
    intro _
    unfold checkTokenBasedFinish at htoken
    split at htoken
    · cases htoken
    split at htoken
    · cases htoken
    rename_i i hi
    obtain ⟨hlt, -⟩ := findIdx?_eq_some_iff_getElem.mp hi
    cases htoken
    exact cap_counts rfl (by omega)
  · split
    · rename_i hmax
      exact fun _ => ⟨hmax, le_rfl⟩
    split
    · intro _
      rw [hlen, getD_none]
      exact ⟨hd.le, by omega⟩
    · exact absurd rfl

theorem updateFinishState_counts (hun : r.finished = false) (hlen : r.finishedLen = none)
    (hto : OnlyAborts r) (hstr : str.located r.outputIds.length = true)
    (hfin : (r.updateFinishState gr str n).finished = true)
    (hreason : (r.updateFinishState gr str n).finishedReason ≠ some .abort) :
    (r.updateFinishState gr str n).finishedLen.getD r.outputIds.length ≤ r.outputIds.length ∧
      (r.updateFinishState gr str n).finishedLen.getD r.outputIds.length ≤ r.params.maxNewTokens := by
  have hnew := newAcceptedTokens_length_le r n
  revert hfin hreason
  unfold updateFinishState
  rw [if_neg (by rw [hun]; exact false_ne_true)]
  split_ifs with hsome
  · intro _ hreason
    obtain ⟨reason, hr⟩ := isSome_iff_exists.mp hsome
    exact absurd (hr.trans (congrArg some (hto reason hr))) hreason
  dsimp only
  split
  · rename_i r₁ hvocab
    intro _ _
    unfold checkVocabBoundaryFinish at hvocab
    split at hvocab
    · cases hvocab
    rename_i i hi
    obtain ⟨hlt, -⟩ := findIdx?_eq_some_iff_getElem.mp hi
    cases hvocab
    exact cap_counts rfl (by omega)
  · split
    · intro _ _
      obtain ⟨len, rfl, hle⟩ := any_eq_true _ _ |>.mp hstr
      exact cap_counts rfl (of_decide_eq_true hle)
    · intro _ hreason
      refine finishByTokens_counts hlen hnew rfl fun heq => ?_
      rw [heq] at hreason
      exact hreason rfl
    intro hfin _
    refine finishByTokens_counts hlen hnew rfl fun heq => ?_
    rw [heq, hun] at hfin
    cases hfin

theorem cap_finished (h : r.finished = true) : r.capFinishedLenAtMaxNewTokens.finished = true :=
  (cap_of_finished (.refl r) h).2.2

theorem checkVocab_finished (h : r.checkVocabBoundaryFinish tokens = some r') :
    r'.finished = true := by
  unfold checkVocabBoundaryFinish at h
  split at h
  · cases h
  · cases h
    rfl

theorem checkTokenBased_finished (h : r.checkTokenBasedFinish tokens = some r') :
    r'.finished = true := by
  unfold checkTokenBasedFinish at h
  split at h
  · cases h
  split at h
  · cases h
  · cases h
    rfl

theorem finishByTokens_room
    (hun : (r.finishByTokens gr tokens).finished = false) : r.outputIds.length < r.params.maxNewTokens := by
  unfold finishByTokens at hun
  split at hun
  · rename_i htoken
    rw [cap_finished (checkTokenBased_finished htoken)] at hun
    cases hun
  split at hun
  · cases hun
  · rename_i hroom
    exact not_le.mp hroom

theorem updateFinishState_room (hun : (r.updateFinishState gr str n).finished = false) :
    r.outputIds.length < r.params.maxNewTokens := by
  unfold updateFinishState at hun
  split at hun
  · rename_i hfin
    cases hfin.symm.trans hun
  split at hun
  · rename_i hsome
    rw [finished, hsome] at hun
    cases hun
  dsimp only at hun
  split at hun
  · rename_i hvocab
    rw [cap_finished (checkVocab_finished hvocab)] at hun
    cases hun
  split at hun
  · rw [cap_finished rfl] at hun
    cases hun
  · exact finishByTokens_room (r := { r with finishedReason := some .abort }) hun
  · exact finishByTokens_room hun

/-! ## Processing -/

def Req.checked (cfg : Config G) (v : Verdict) (r : Req G) (tokens : List Token) (n : ℕ) : Req G :=
  { r with outputIds := r.outputIds ++ tokens }.updateFinishState cfg.grammar v.str n

structure Skips (r r' : Req G) : Prop where
  job : SameJob r r'
  span : SameSpan r r'
  holds : r'.holdsKv = r.holdsKv

structure Appends (cfg : Config G) (v : Verdict) (r r' : Req G) (p : Pending) (r₁ : Req G)
    (tokens : List Token) (n : ℕ) : Prop where
  counted : r.counted cfg p = some (r₁, tokens)
  checks : n = tokens.length ∨ (n = 1 ∧ p.kind ≠ .verify)
  inflight : p.kind = .extend → r.inflightMiddleChunks = 0
  job : SameJob (r₁.checked cfg v tokens n) r'
  row : r'.finished = true → r'.row = (r₁.checked cfg v tokens n).row
  span : SameSpan r r'
  holds : r'.finished = false → r'.holdsKv = r.holdsKv

theorem sameSpan_checked :
    SameSpan r (r.checked cfg v tokens n) ∧ (r.checked cfg v tokens n).holdsKv = r.holdsKv := by
  cases hfin : r.finished with
  | true =>
    have hkeep : r.checked cfg v tokens n = { r with outputIds := r.outputIds ++ tokens } := if_pos hfin
    rw [hkeep]
    exact ⟨⟨rfl, rfl, rfl, rfl⟩, rfl⟩
  | false =>
    have hsame := (@ended_updateFinishState _ cfg.grammar
      { r with outputIds := r.outputIds ++ tokens } hfin v.str n).same
    exact ⟨⟨hsame.fill, hsame.ended, hsame.seqLen, hsame.lastToken⟩, hsame.holds⟩

theorem finishPrefill_job (h : r.finishPrefill cfg v cached p = some (r', cached')) :
    SameJob (r.checked cfg v p.tokens 1) r' ∧ (r'.finished = true → r'.row = (r.checked cfg v p.tokens 1).row) ∧
      SameSpan r r' ∧ (r'.finished = false → r'.holdsKv = r.holdsKv) := by
  obtain ⟨hspan, hholds⟩ := sameSpan_checked
  unfold checked at hspan hholds ⊢
  unfold finishPrefill at h
  dsimp only at h
  generalize updateFinishState cfg.grammar v.str _ 1 = r₁ at h hspan hholds ⊢
  split at h
  · rename_i hfin
    cases h
    have hjob := SameJob.release r₁ v.isInsert v.stripped
    rw [releaseKvCache_fst] at hjob ⊢
    exact ⟨hjob, fun _ => rfl, hspan.trans ⟨rfl, rfl, rfl, rfl⟩,
      fun hun => nomatch hfin.symm.trans hun⟩
  rename_i hun
  split at h
  · cases h
    split
    · exact ⟨⟨rfl, rfl, rfl, rfl, rfl, id, id⟩, fun _ => rfl, hspan.trans ⟨rfl, rfl, rfl, rfl⟩, fun _ => hholds⟩
    · exact ⟨.refl r₁, fun _ => rfl, hspan, fun _ => hholds⟩
  split at h
  · have hjob := SameJob.cacheUnfinished h
    unfold cacheUnfinishedReq at h
    dsimp only at h
    split at h
    · cases h
    · cases h
      exact ⟨hjob, fun hfin => absurd hfin hun, hspan.trans ⟨rfl, rfl, rfl, rfl⟩, fun _ => hholds⟩
  · cases h
    exact ⟨.refl _, fun _ => rfl, hspan, fun _ => hholds⟩

theorem process_prefill_cases (hkind : p.kind = .extend ∨ p.kind = .mixed)
    (h : r.processBatchResultPrefill cfg v cached p = some (r', cached')) :
    Skips r r' ∨ Appends cfg v r r' p r p.tokens 1 := by
  have hverify : p.kind ≠ .verify := by
    rcases hkind with hk | hk <;> rw [hk] <;> decide
  have hcounted : r.counted cfg p = some (r, p.tokens) := by
    rcases hkind with hk | hk <;> simp only [counted]
  unfold processBatchResultPrefill at h
  split at h
  · cases h
    exact .inl ⟨.refl _, .refl _, rfl⟩
  split at h
  · rename_i hinflight
    split at h
    · cases h
    rename_i r₁ cached₁ hfinish
    cases h
    obtain ⟨hjob, hrow, hspan, hholds⟩ := finishPrefill_job hfinish
    refine .inr ?_
    split
    · exact ⟨hcounted, .inr ⟨rfl, hverify⟩, fun _ => hinflight, hjob, hrow, hspan, hholds⟩
    obtain ⟨grammar, toFinish, htold, haccept⟩ := accept_frame
    rw [haccept]
    exact ⟨hcounted, .inr ⟨rfl, hverify⟩, fun _ => hinflight, hjob.trans (.of_told _ grammar htold), hrow,
      hspan.trans ⟨rfl, rfl, rfl, rfl⟩, hholds⟩
  · cases h
    exact .inl ⟨⟨rfl, rfl, rfl, rfl, rfl, id, id⟩, ⟨rfl, rfl, rfl, rfl⟩, rfl⟩

theorem commitTokens_cases (h : r.commitTokens cfg v cached tokens = (r', cached')) :
    r' = r ∨ (SameJob (r.checked cfg v tokens tokens.length) r' ∧
      r'.row = (r.checked cfg v tokens tokens.length).row ∧ SameSpan r r' ∧
      (r'.finished = false → r'.holdsKv = r.holdsKv)) := by
  obtain ⟨hspan, hholds⟩ := sameSpan_checked
  unfold commitTokens at h
  split at h
  · exact .inl (Prod.mk.inj h).1.symm
  right
  unfold checked at hspan hholds ⊢
  dsimp only at h
  generalize updateFinishState cfg.grammar v.str _ tokens.length = r₁ at h hspan hholds ⊢
  obtain ⟨r₂, hr₂, hjob, hrow, hspan₂, hholds₂⟩ : ∃ r₂,
      r₂ = (if r₁.finished then r₁.releaseKvCache v.isInsert v.stripped else (r₁, [])).1 ∧
      SameJob r₁ r₂ ∧ r₂.row = r₁.row ∧ SameSpan r₁ r₂ ∧ (r₁.finished = false → r₂.holdsKv = r₁.holdsKv) := by
    refine ⟨_, rfl, ?_⟩
    split_ifs with hfin
    · have hrelease := SameJob.release r₁ v.isInsert v.stripped
      rw [releaseKvCache_fst] at hrelease ⊢
      exact ⟨hrelease, rfl, ⟨rfl, rfl, rfl, rfl⟩, fun hun => nomatch hfin.symm.trans hun⟩
    · exact ⟨.refl r₁, rfl, .refl r₁, fun _ => rfl⟩
  rw [← hr₂] at h
  have hr' := (Prod.mk.inj h).1
  split at hr'
  · subst hr'
    exact ⟨hjob, hrow, hspan.trans hspan₂, fun hun => (hholds₂ (hjob.finished.symm.trans hun)).trans hholds⟩
  obtain ⟨grammar, toFinish, htold, haccept⟩ := accept_frame
  rw [haccept] at hr'
  subst hr'
  exact ⟨hjob.trans (.of_told _ grammar htold), hrow, (hspan.trans hspan₂).trans ⟨rfl, rfl, rfl, rfl⟩,
    fun hun => (hholds₂ (hjob.finished.symm.trans hun)).trans hholds⟩

theorem process_cases (hdecode : p.kind = .decode → cfg.spec = false)
    (hverify : p.kind = .verify → cfg.spec = true)
    (h : r.processBatchResult cfg v cached (some p) = some (r', cached')) :
    Skips r r' ∨ ∃ r₁ tokens n, Appends cfg v r r' p r₁ tokens n := by
  have hcommit : ∀ r₁ tokens, r.counted cfg p = some (r₁, tokens) → p.kind ≠ .extend →
      r₁.commitTokens cfg v cached tokens = (r', cached') →
      Skips r r' ∨ ∃ r₁ tokens n, Appends cfg v r r' p r₁ tokens n := by
    intro r₁ tokens hcounted hkind hcommit
    have hskips : Skips r r₁ := by
      obtain ⟨committed, grammar, toFinish, htold, rfl⟩ := counted_frame hcounted
      exact ⟨.of_told committed grammar htold, ⟨rfl, rfl, rfl, rfl⟩, rfl⟩
    rcases commitTokens_cases hcommit with rfl | ⟨hjob, hrow, hspan, hholds⟩
    · exact .inl hskips
    · exact .inr ⟨r₁, tokens, _, hcounted, .inl rfl, fun hextend => absurd hextend hkind, hjob, fun _ => hrow,
        hskips.span.trans hspan, fun hun => (hholds hun).trans hskips.holds⟩
  unfold processBatchResult at h
  cases hkind : p.kind with
  | extend =>
    simp only [hkind] at h
    exact (process_prefill_cases (.inl hkind) h).imp id fun ha => ⟨_, _, _, ha⟩
  | mixed =>
    simp only [hkind] at h
    exact (process_prefill_cases (.inr hkind) h).imp id fun ha => ⟨_, _, _, ha⟩
  | decode =>
    simp only [hkind, processBatchResultDecode] at h
    rw [if_neg (by rw [hdecode hkind]; decide)] at h
    exact hcommit r p.tokens (by simp only [counted, hkind]) (by rw [hkind]; decide) (some.inj h)
  | verify =>
    simp only [hkind, processBatchResultDecode] at h
    rw [if_pos (hverify hkind)] at h
    split at h
    · cases h
    · rename_i r₁ tokens hresolve
      exact hcommit r₁ tokens (by simp only [counted, hkind, hresolve]) (by rw [hkind]; decide)
        (some.inj h)

structure Continued (r r' : Req G) : Prop where
  params : r'.params = r.params
  origin : r'.originInputIds = r.originInputIds
  finishedLen : r'.finishedLen = r.finishedLen
  room : r'.outputIds = r.outputIds ∨ r'.outputIds.length ≤ r.params.maxNewTokens
  aborts : OnlyAborts r → OnlyAborts r'
  span : SameSpan r r'
  holds : r'.holdsKv = r.holdsKv

theorem Skips.continued (h : Skips r r') : Continued r r' :=
  { h.job with room := .inl h.job.output, span := h.span, holds := h.holds }

theorem process_continued (hdecode : p.kind = .decode → cfg.spec = false)
    (hverify : p.kind = .verify → cfg.spec = true)
    (h : r.processBatchResult cfg v cached (some p) = some (r', cached'))
    (hun : r'.finished = false) : Continued r r' := by
  obtain hskips | ⟨r₁, tokens, n, ha⟩ := process_cases hdecode hverify h
  · exact hskips.continued
  have hcounted := sameJob_counted ha.counted
  have hopen := ha.job.finished.symm.trans hun
  have hroom := updateFinishState_room hopen
  have hbefore : finished { r₁ with outputIds := r₁.outputIds ++ tokens } = false := by
    by_contra hyes
    rw [not_eq_false] at hyes
    rw [checked, updateFinishState, if_pos hyes, hyes] at hopen
    cases hopen
  have hkeep := (ended_updateFinishState hbefore v.str n).unchanged hopen
  have hjob : SameJob { r₁ with outputIds := r₁.outputIds ++ tokens } r' := by
    rw [← hkeep]
    exact ha.job
  refine ⟨hjob.params.trans hcounted.params, hjob.origin.trans hcounted.origin,
    hjob.finishedLen.trans hcounted.finishedLen, .inr ?_, fun hr => hjob.aborts (hcounted.aborts hr),
    ha.span, ha.holds hun⟩
  rw [hjob.output, ← hcounted.params]
  exact hroom.le

/-- What a result leaves of a request that it ends; `tokens` is the run it appends to `r`. -/
structure Closed (v : Verdict) (r r' : Req G) (tokens : List Token) : Prop where
  params : r'.params = r.params
  origin : r'.originInputIds = r.originInputIds
  row : r'.row = r.row
  length : r'.outputIds.length = (r.outputIds ++ tokens).length
  /-- Only a token of the run is replaced, and only one outside the vocabulary. -/
  changed : ∀ j, r'.outputIds[j]? ≠ (r.outputIds ++ tokens)[j]? →
    ∃ k t, j = r.outputIds.length + k ∧ tokens[k]? = some t ∧ r.outOfVocab t = true
  /-- The tokens that count are there, and are not too many. -/
  counts : r.finishedLen = none → OnlyAborts r → v.str.located r'.outputIds.length = true →
    r'.finishedReason ≠ some .abort →
    r'.finishedLen.getD r'.outputIds.length ≤ r'.outputIds.length ∧
      r'.finishedLen.getD r'.outputIds.length ≤ r'.params.maxNewTokens

theorem counted_spec {r₁ : Req G} (hun : r.finished = false) (hres : r.isRetracted = false)
    (hmemo : Memo cfg r p) (h : r.counted cfg p = some (r₁, tokens)) :
    (∃ committed grammar toFinish,
      r₁ = { r with kvCommittedLen := committed, grammar := grammar, toFinish := toFinish }) ∧
      tokens <+: p.tokens ∧ (tokens = p.tokens ∨ Req.CutShort cfg.grammar r₁ tokens) ∧
      (p.kind ≠ .verify → tokens = p.tokens) := by
  unfold counted at h
  split at h
  · rename_i hkind
    obtain ⟨grammar, toFinish, hr₁, hle, hcut⟩ := resolveSpecV2Tokens_spec hun hres hkind hmemo h
    exact ⟨⟨_, grammar, toFinish, hr₁⟩, hle, hcut, absurd hkind⟩
  · cases h
    exact ⟨⟨_, _, _, rfl⟩, prefix_rfl, .inl rfl, fun _ => rfl⟩

theorem process_closed (hun : r.finished = false) (hres : r.isRetracted = false)
    (hformed : p.Formed cfg) (hmemo : Memo cfg r p)
    (h : r.processBatchResult cfg v cached (some p) = some (r', cached'))
    (hfin : r'.finished = true) :
    ∃ r₁ tokens, r.counted cfg p = some (r₁, tokens) ∧ tokens <+: p.tokens ∧
      SameSpan r r' ∧ Closed v r₁ r' tokens := by
  obtain hskips | ⟨r₁, tokens, n, ha⟩ := process_cases hformed.decode hformed.verify h
  · rw [hskips.job.finished, hun] at hfin
    cases hfin
  obtain ⟨⟨committed, grammar, toFinish, hr₁⟩, hle, hcut, hwhole⟩ := counted_spec hun hres hmemo ha.counted
  have hn : n = tokens.length := by
    rcases ha.checks with hn | ⟨rfl, hkind⟩
    · exact hn
    · rw [hwhole hkind, hformed.single hkind]
  have hun₁ : r₁.finished = false := by
    rwa [hr₁]
  have hjob := ha.job
  have hended : Req.Ended cfg.grammar { r₁ with outputIds := r₁.outputIds ++ tokens }
      (r₁.checked cfg v tokens n) n :=
    ended_updateFinishState (r := { r₁ with outputIds := r₁.outputIds ++ tokens }) hun₁ v.str n
  refine ⟨r₁, tokens, ha.counted, hle, ha.span, hjob.params.trans hended.same.params,
    hjob.origin.trans hended.same.origin, (ha.row hfin).trans hended.same.row,
    (congrArg length hjob.output).trans hended.length, fun j hj => ?_, fun hlen hto hstr hreason => ?_⟩
  · rw [hjob.output] at hj
    obtain ⟨hnone, hlow, t, ht, hbad⟩ := hended.changed j hj
    have hsome : tokens ≠ [] := by
      intro hnil
      have hshort : tokens ≠ p.tokens := fun heq => hformed.nonempty (heq.symm.trans hnil)
      rcases hcut.resolve_left hshort with hto | hterm
      · have hnone : r₁.toFinish = none := hnone
        rw [hnone] at hto
        cases hto
      · exact hterm.2 hnil
    have hj : r₁.outputIds.length ≤ j := by
      have := hlow (by rw [hn]; exact (length_pos_iff.mpr hsome).ne')
      rwa [length_append, hn, Nat.add_sub_cancel] at this
    rw [getElem?_append_right hj] at ht
    exact ⟨_, t, (Nat.add_sub_cancel' hj).symm, ht, hbad⟩
  · have houtlen := hended.length
    have hopen := hjob.finished.symm.trans hfin
    rw [hjob.output, houtlen] at hstr
    rw [hjob.reason] at hreason
    rw [hjob.finishedLen, hjob.output, hjob.params, hended.same.params, houtlen]
    exact updateFinishState_counts hun₁ hlen hto hstr
      hopen hreason

section Phases

variable {q : List Pending}

theorem Chunked.continued {written middle : ℕ} (h : Chunked r (p :: q) written middle)
    (hproc : r.processBatchResult cfg v cached (some p) = some (r', cached')) :
    Continued r r' ∧ r'.finished = false := by
  obtain ⟨-, rfl, -⟩ := h.process hproc
  exact ⟨⟨rfl, rfl, rfl, .inl rfl, id, ⟨rfl, rfl, rfl, rfl⟩, rfl⟩, h.unfinished⟩

section

variable (h : Running cfg r (p :: q) extra)
include h

theorem Running.kinds :
    (p.kind = .decode → cfg.spec = false) ∧ (p.kind = .verify → cfg.spec = true) := by
  by_cases hinflight : r.inflightMiddleChunks = 0
  · have hformed := (h.next.1 hinflight).formed p mem_cons_self
    exact ⟨hformed.decode, hformed.verify⟩
  · have hkind := (h.next.2 hinflight).1
    rw [hkind]
    exact ⟨(fun h => nomatch h), (fun h => nomatch h)⟩

theorem Running.continued
    (hproc : r.processBatchResult cfg v cached (some p) = some (r', cached')) (hun : r'.finished = false) :
    Continued r r' :=
  process_continued h.kinds.1 h.kinds.2 hproc hun

theorem Running.ends
    (hproc : r.processBatchResult cfg v cached (some p) = some (r', cached')) (hfin : r'.finished = true) :
    Aligned cfg r (p :: q) extra := by
  refine h.next.1 ?_
  by_contra hne
  obtain hskips | ⟨r₁, tokens, n, ha⟩ := process_cases h.kinds.1 h.kinds.2 hproc
  · rw [hskips.job.finished, h.unfinished] at hfin
    cases hfin
  · exact hne (ha.inflight (h.next.2 hne).1)

end

theorem Phase.outcome (h : Phase cfg r (p :: q)) (hun : r.finished = false)
    (hproc : r.processBatchResult cfg v cached (some p) = some (r', cached')) :
    (r'.finished = false → Continued r r') ∧ (r'.finished = true → Running cfg r (p :: q) 0) ∧
      (r.holdsKv = false → r' = r) := by
  cases h with
  | done holds finished => simp [finished] at hun
  | waiting holds unfinished inflight fill dropped =>
    obtain ⟨hres, hoverlap⟩ := dropped.resolve_left (cons_ne_nil _ _)
    obtain ⟨-, rfl | ⟨hres', -⟩⟩ := process_late hoverlap (.inr hres) hproc
    · exact ⟨fun _ => ⟨rfl, rfl, rfl, .inl rfl, id, .refl _, rfl⟩,
        fun hfin => (nomatch hfin.symm.trans hun), fun _ => rfl⟩
    · exact nomatch hres.symm.trans hres'
  | chunked chunk middle =>
    obtain ⟨hcontinued, hopen⟩ := chunk.continued hproc
    exact ⟨fun _ => hcontinued, fun hfin => (nomatch hfin.symm.trans hopen),
      fun hno => nomatch chunk.holds.symm.trans hno⟩
  | running run =>
    exact ⟨run.continued hproc, fun _ => run, fun hno => nomatch run.holds.symm.trans hno⟩

end Phases

end SparkInfer.Commit
