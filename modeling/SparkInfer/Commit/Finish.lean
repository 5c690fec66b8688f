import SparkInfer.Commit.Loop
import Mathlib.Data.List.Infix
import Mathlib.Data.List.Basic

/-!
# What the end of a request changes

`update_finish_state` leaves an unfinished request as it is, and in one that it finishes
replaces at most tokens outside the vocabulary.  A run that a grammar cuts short belongs
to a request that is finished with it.
-/

namespace SparkInfer.Commit.Req

open List Option

variable {G : Type} {gr : Grammar G} {r r' : Req G} {str : StrOutcome} {n : ℕ}

structure SameRun (r r' : Req G) : Prop where
  params : r'.params = r.params
  origin : r'.originInputIds = r.originInputIds
  fill : r'.fillIds = r.fillIds
  ended : r'.extendEnd = r.extendEnd
  committed : r'.kvCommittedLen = r.kvCommittedLen
  holds : r'.holdsKv = r.holdsKv
  inflight : r'.inflightMiddleChunks = r.inflightMiddleChunks
  retracted : r'.isRetracted = r.isRetracted
  seqLen : r'.seqLen = r.seqLen
  lastToken : r'.lastToken = r.lastToken
  row : r'.row = r.row
  pending : r'.pending = r.pending

theorem SameRun.refl (r : Req G) : SameRun r r :=
  ⟨rfl, rfl, rfl, rfl, rfl, rfl, rfl, rfl, rfl, rfl, rfl, rfl⟩

theorem SameRun.trans {r'' : Req G} (h : SameRun r r') (h' : SameRun r' r'') : SameRun r r'' :=
  ⟨h'.params.trans h.params, h'.origin.trans h.origin, h'.fill.trans h.fill, h'.ended.trans h.ended,
    h'.committed.trans h.committed, h'.holds.trans h.holds, h'.inflight.trans h.inflight,
    h'.retracted.trans h.retracted, h'.seqLen.trans h.seqLen, h'.lastToken.trans h.lastToken,
    h'.row.trans h.row, h'.pending.trans h.pending⟩

theorem sameRun_ended (outputIds : List Token) (toFinish finishedReason : Option FinishReason)
    (finishedLen : Option ℕ) : SameRun r { r with
      outputIds := outputIds, toFinish := toFinish, finishedReason := finishedReason
      finishedLen := finishedLen } :=
  ⟨rfl, rfl, rfl, rfl, rfl, rfl, rfl, rfl, rfl, rfl, rfl, rfl⟩

theorem cap_of_finished {r₁ : Req G} (hsame : SameRun r r₁) (hfin : r₁.finished = true) :
    SameRun r r₁.capFinishedLenAtMaxNewTokens ∧
      r₁.capFinishedLenAtMaxNewTokens.outputIds = r₁.outputIds ∧
      r₁.capFinishedLenAtMaxNewTokens.finished = true := by
  unfold capFinishedLenAtMaxNewTokens
  split
  · split
    · exact ⟨hsame.trans (sameRun_ended _ _ _ _), rfl, rfl⟩
    · exact ⟨hsame, rfl, hfin⟩
  · exact ⟨hsame, rfl, hfin⟩

theorem finishByTokens_spec (r : Req G) (tokens : List Token) :
    SameRun r (r.finishByTokens gr tokens) ∧ (r.finishByTokens gr tokens).outputIds = r.outputIds ∧
      ((r.finishByTokens gr tokens).finished = true ∨ r.finishByTokens gr tokens = r) ∧
      (r.grammar.any gr.isTerminated = true → (r.finishByTokens gr tokens).finished = true) := by
  unfold finishByTokens
  split
  · rename_i r₁ htoken
    unfold checkTokenBasedFinish at htoken
    split at htoken
    · cases htoken
    split at htoken
    · cases htoken
    have hr₁ := some.inj htoken
    have hout₁ : r₁.outputIds = r.outputIds := by rw [← hr₁]
    have hsame₁ : SameRun r r₁ := by
      rw [← hr₁]
      exact sameRun_ended _ _ _ _
    have hfin₁ : r₁.finished = true := by
      rw [← hr₁]
      rfl
    obtain ⟨hsame, hout, hfin⟩ := cap_of_finished hsame₁ hfin₁
    exact ⟨hsame, hout.trans hout₁, .inl hfin, fun _ => hfin⟩
  · split
    · exact ⟨sameRun_ended _ _ _ _, rfl, .inl rfl, fun _ => rfl⟩
    · split_ifs with hno
      · exact ⟨sameRun_ended _ _ _ _, rfl, .inl rfl, fun _ => rfl⟩
      · exact ⟨.refl r, rfl, .inr rfl, fun hterm => absurd hterm hno⟩

theorem sanitize_length (offset : ℕ) : (r.sanitize offset).length = r.outputIds.length := by
  unfold sanitize
  cases r.params.stopTokenIds <;> cases r.params.eosTokenIds <;> simp

theorem sanitize_of_ne {offset j : ℕ} (h : j ≠ offset) :
    (r.sanitize offset)[j]? = r.outputIds[j]? := by
  unfold sanitize
  cases r.params.stopTokenIds <;> cases r.params.eosTokenIds <;> simp [getElem?_set_ne h.symm]

/-- What `update_finish_state` can change: the tokens outside the vocabulary among the
last `n`, in a request that nothing else ends. -/
structure Ended (gr : Grammar G) (r r' : Req G) (n : ℕ) : Prop where
  same : SameRun r r'
  length : r'.outputIds.length = r.outputIds.length
  changed : ∀ j, r'.outputIds[j]? ≠ r.outputIds[j]? → r.toFinish = none ∧
    (n ≠ 0 → r.outputIds.length - n ≤ j) ∧ ∃ t, r.outputIds[j]? = some t ∧ r.outOfVocab t = true
  unchanged : r'.finished = false → r' = r
  must : r.toFinish.isSome = true ∨ r.grammar.any gr.isTerminated = true → r'.finished = true

theorem ended_of_same (hsame : SameRun r r') (hout : r'.outputIds = r.outputIds)
    (hfin : r'.finished = true ∨ r' = r)
    (hmust : r.toFinish.isSome = true ∨ r.grammar.any gr.isTerminated = true → r'.finished = true) :
    Ended gr r r' n where
  same := hsame
  length := by rw [hout]
  changed j hj := absurd (by rw [hout]) hj
  unchanged hno := hfin.resolve_left (by rw [hno]; exact Bool.false_ne_true)
  must := hmust

theorem newAcceptedTokens_eq_drop (r : Req G) (n : ℕ) : ∃ k ≤ r.outputIds.length,
    r.newAcceptedTokens n = r.outputIds.drop k ∧ (n ≠ 0 → r.outputIds.length - n ≤ k) := by
  unfold newAcceptedTokens
  split_ifs with hzero
  · exact ⟨0, Nat.zero_le _, rfl, absurd hzero⟩
  · exact ⟨r.outputIds.length - n, Nat.sub_le _ _, rfl, fun _ => le_rfl⟩

theorem ended_checkVocab (hto : r.toFinish = none) {r₁ : Req G}
    (h : r.checkVocabBoundaryFinish (r.newAcceptedTokens n) = some r₁) :
    Ended gr r r₁.capFinishedLenAtMaxNewTokens n := by
  unfold checkVocabBoundaryFinish at h
  split at h
  · cases h
  rename_i i hi
  have hr₁ := some.inj h
  have hsame₁ : SameRun r r₁ := by
    rw [← hr₁]
    exact sameRun_ended _ _ _ _
  have hfin₁ : r₁.finished = true := by
    rw [← hr₁]
    rfl
  have hout₁ : r₁.outputIds =
      r.sanitize (r.outputIds.length - (r.newAcceptedTokens n).length + i) := by
    rw [← hr₁]
  obtain ⟨hsame, hout, hfin⟩ := cap_of_finished hsame₁ hfin₁
  refine ⟨hsame, ?_, fun j hj => ⟨hto, ?_⟩, fun hun => ?_, fun _ => hfin⟩
  · rw [hout, hout₁, sanitize_length]
  · obtain ⟨k, hk, hdrop, hlow⟩ := r.newAcceptedTokens_eq_drop n
    obtain ⟨hlt, hbad, -⟩ := List.findIdx?_eq_some_iff_getElem.mp hi
    have hoffset : j = k + i := by
      by_contra hne
      refine hj ?_
      rw [hout, hout₁]
      refine sanitize_of_ne ?_
      rw [hdrop, length_drop]
      omega
    refine ⟨fun hn => (hlow hn).trans (by omega), (r.newAcceptedTokens n)[i], ?_, hbad⟩
    rw [hoffset, ← List.getElem?_drop, ← hdrop, List.getElem?_eq_getElem hlt]
  · cases hfin.symm.trans hun

theorem ended_updateFinishState (hno : r.finished = false) (str : StrOutcome) (n : ℕ) :
    Ended gr r (r.updateFinishState gr str n) n := by
  unfold updateFinishState
  rw [if_neg (by rw [hno]; exact Bool.false_ne_true)]
  split_ifs with hto
  · exact ended_of_same (sameRun_ended _ _ _ _) rfl (.inl hto) fun _ => hto
  have hterm : r.toFinish.isSome = true ∨ r.grammar.any gr.isTerminated = true →
      r.grammar.any gr.isTerminated = true := fun h => h.resolve_left hto
  dsimp only
  split
  · rename_i r₁ hvocab
    exact ended_checkVocab (not_isSome_iff_eq_none.mp hto) hvocab
  split
  · rename_i reason finishedLen
    obtain ⟨hsame, hout, hfin⟩ := cap_of_finished
      (sameRun_ended r.outputIds r.toFinish (some reason) finishedLen) rfl
    exact ended_of_same hsame hout (.inl hfin) fun _ => hfin
  · obtain ⟨hsame, hout, hfin, -⟩ := { r with finishedReason := some .abort }.finishByTokens_spec
      (r.newAcceptedTokens n)
    have hdone : (finishByTokens gr { r with finishedReason := some .abort }
        (r.newAcceptedTokens n)).finished = true := by
      rcases hfin with hfin | hsame
      · exact hfin
      · rw [hsame]
        rfl
    exact ended_of_same ((sameRun_ended _ _ _ _).trans hsame) hout (.inl hdone) fun _ => hdone
  · obtain ⟨hsame, hout, hfin, hmust⟩ := r.finishByTokens_spec (r.newAcceptedTokens n)
    exact ended_of_same hsame hout hfin fun h => hmust (hterm h)

/-! ## Grammars -/

variable (gr : Grammar G)

/-- What a grammar leaves of a run: all of it, or it has failed or is at its end. -/
theorem acceptLoop_spec (g : G) (tokens : List Token) : (acceptLoop gr g tokens).2.1 <+: tokens ∧
      ((acceptLoop gr g tokens).2.1 = tokens ∨ (acceptLoop gr g tokens).2.2 = true ∨
        (gr.isTerminated (acceptLoop gr g tokens).1 = true ∧ (acceptLoop gr g tokens).2.1 ≠ [])) := by
  induction tokens generalizing g with
  | nil => exact ⟨prefix_rfl, .inl rfl⟩
  | cons t rest ih =>
    unfold acceptLoop
    cases haccept : gr.acceptToken g t with
    | none => exact ⟨ nil_prefix, .inr (.inl rfl)⟩
    | some g' =>
      dsimp only
      split_ifs with hterm
      · exact ⟨(prefix_cons_inj t).mpr nil_prefix, .inr (.inr ⟨hterm, cons_ne_nil _ _⟩)⟩
      obtain ⟨hle, hend⟩ := ih g'
      refine ⟨(prefix_cons_inj t).mpr hle, ?_⟩
      rcases hend with hall | hfail | ⟨hterm, -⟩
      · exact .inl (by rw [hall])
      · exact .inr (.inl hfail)
      · exact .inr (.inr ⟨hterm, cons_ne_nil _ _⟩)

/-- Only part of a run is kept: the request is about to end. -/
def CutShort (r : Req G) (retained : List Token) : Prop :=
  r.toFinish.isSome = true ∨ (r.grammar.any gr.isTerminated = true ∧ retained ≠ [])

theorem acceptGrammarTokens_spec (r : Req G) (tokens : List Token) :
    (∃ grammar toFinish, (r.acceptGrammarTokens gr tokens).1 =
      { r with grammar := grammar, toFinish := toFinish }) ∧
      (r.acceptGrammarTokens gr tokens).2 <+: tokens ∧
      ((r.acceptGrammarTokens gr tokens).2 = tokens ∨
        CutShort gr (r.acceptGrammarTokens gr tokens).1 (r.acceptGrammarTokens gr tokens).2) := by
  unfold acceptGrammarTokens
  cases hg : r.grammar with
  | none => exact ⟨⟨r.grammar, r.toFinish, rfl⟩, prefix_rfl, .inl rfl⟩
  | some g =>
    obtain ⟨hle, hend⟩ := acceptLoop_spec gr g tokens
    refine ⟨⟨_, _, rfl⟩, hle, ?_⟩
    rcases hend with hall | hfail | hterm
    · exact .inl hall
    · refine .inr (.inl ?_)
      dsimp only
      rw [if_pos hfail]
      rfl
    · exact .inr (.inr hterm)

end SparkInfer.Commit.Req
