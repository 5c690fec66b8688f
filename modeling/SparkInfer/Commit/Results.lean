import SparkInfer.Commit.Launch

/-!
# Processing a result

A result is appended to the output and counted as committed.  The request stays in step
with the device, or it ends, and then what it hands to the tree is sound unless a token
outside the vocabulary was replaced at a position that is already committed.
-/

namespace SparkInfer.Commit

open List Req Pending Option

variable {G : Type} {cfg : Config G} {r' : Req G} {p : Pending} {q rest : List Pending}
variable {r : Req G}
  {cached cached' : List Handed} {v : Verdict}
variable {extra n : ℕ} {r₁ : Req G} {kept : List Token}

def Req.counted (cfg : Config G) (r : Req G) (p : Pending) : Option (Req G × List Token) :=
  match p.kind with
  | .verify => r.resolveSpecV2Tokens cfg p
  | _ => some (r, p.tokens)

def VocabSafe (r : Req G) (tokens : List Token) : Prop :=
  r.holdsKv = true → r.toFinish = none → ∀ j t, tokens[j]? = some t → r.outOfVocab t = true →
    r.kvCommittedLen ≤ r.originInputIds.length + r.outputIds.length + j

/-! ## Appending -/

def Req.appended (r : Req G) (n : ℕ) (kept : List Token) (grammar : Option G)
    (toFinish : Option FinishReason) : Req G :=
  { r with
    kvCommittedLen := r.kvCommittedLen + n, outputIds := r.outputIds ++ kept
    grammar := grammar, toFinish := toFinish }

theorem Aligned.committed_le (h : Aligned cfg r (p :: rest) 0) (hrest : rest.length ≤ 1) :
    r.kvCommittedLen + p.uncounted cfg ≤ r.seqLen ∧
      r.kvCommittedLen + p.uncounted cfg ≤ (r.originInputIds ++ r.outputIds).length + p.tokens.length := by
  have hcommitted := h.committed
  have hlen := h.length
  have hahead := length_sampled_le hrest (forall_mem_cons.mp h.formed).2
  rw [uncounted_cons] at hcommitted
  simp only [sampled_cons, length_append] at hlen ⊢
  omega

/-- How many of the kept tokens are counted when they are appended. -/
def CountedAs (p : Pending) (n : ℕ) (kept : List Token) : Prop :=
  (n = 0 ∧ kept = p.tokens) ∨ (n = kept.length ∧ p.kind = .verify)

theorem Pending.uncounted_verify (h : p.kind = .verify) : p.uncounted cfg = p.tokens.length := by
  simp only [uncounted, h]

theorem Aligned.append (h : Aligned cfg r (p :: rest) extra) (grammar : Option G)
    (toFinish : Option FinishReason) :
    Aligned cfg (r.appended (p.uncounted cfg) p.tokens grammar toFinish) rest extra := by
  have hall : r.originInputIds ++ (r.outputIds ++ p.tokens) ++ sampled rest =
      r.originInputIds ++ r.outputIds ++ sampled (p :: rest) := by
    rw [sampled_cons]
    simp only [append_assoc]
  refine ⟨(forall_mem_cons.mp h.formed).2, fun p hp => h.tail p (mem_of_mem_tail hp),
    fun p hp hkind => ?_, h.origin, ?_, ?_, fun i hi => ?_, ?_⟩
  · exact absurd hkind (h.tail p (mem_of_mem_head? hp))
  · exact (congrArg List.length hall).trans h.length
  · exact (congrArg (·[r.seqLen]?) hall).trans h.last
  · exact (h.row i hi).trans (congrArg (·[i]?) hall).symm
  · have := h.committed
    rw [uncounted_cons] at this
    change r.kvCommittedLen + p.uncounted cfg + uncounted cfg rest = r.seqLen + extra
    omega

/-! ## The end of a request -/

theorem Req.Ended.release_sound {gr : Grammar G} {output more : List Token}
    {isInsert stripped : Bool} (hended : Ended gr r r₁ kept.length)
    (hout : r.outputIds = output ++ kept) (hempty : kept = [] → r.toFinish.isSome = true)
    (hholds : r.holdsKv = true)
    (hrow : ∀ i < r.kvCommittedLen, r.row i = (r.originInputIds ++ (output ++ kept) ++ more)[i]?)
    (hlen : r.kvCommittedLen ≤ (r.originInputIds ++ (output ++ kept)).length)
    (hsafe : r.toFinish = none → ∀ j t, kept[j]? = some t → r.outOfVocab t = true → r.kvCommittedLen ≤ r.originInputIds.length + output.length + j) :
    ∀ e ∈ (r₁.releaseKvCache isInsert stripped).2, e.Sound := by
  have hsame := hended.same
  have hle : (if stripped then min r₁.kvCommittedLen r₁.originInputIds.length else r₁.kvCommittedLen) ≤
      r.kvCommittedLen := by
    rw [hsame.committed]
    split
    · exact min_le_left _ _
    · exact le_rfl
  intro e he
  rw [releaseKvCache, if_pos (hsame.holds.trans hholds)] at he
  dsimp only at he
  split at he
  · rw [mem_singleton.mp he, hsame.origin, hsame.row]
    rw [hsame.origin] at hle
    refine Handed.sound_of (fun i hi => hrow i (hi.trans_le hle)) (hle.trans hlen)
      (hended.length.trans (congrArg _ hout)) fun j hj => ?_
    rw [← hout] at hj
    obtain ⟨hto, hlow, t, ht, hbad⟩ := hended.changed j hj
    have hkept : kept ≠ [] := fun hnil => by
      have := hempty hnil
      rw [hto] at this
      cases this
    have hj' := hlow (length_pos_iff.mpr hkept).ne'
    rw [hout, length_append, Nat.add_sub_cancel] at hj'
    rw [hout, getElem?_append_right hj'] at ht
    have := hsafe hto _ t ht hbad
    omega
  · exact absurd he not_mem_nil

theorem Running.next (h : Running cfg r (p :: q) extra) :
    (r.inflightMiddleChunks = 0 → Aligned cfg r (p :: q) extra) ∧
      (r.inflightMiddleChunks ≠ 0 → p.kind = .extend ∧
        Running cfg { r with inflightMiddleChunks := r.inflightMiddleChunks - 1 } q extra) := by
  obtain ⟨mids, rest, hq, hmids, hchunks, ha⟩ := h.aligned
  cases mids with
  | nil =>
    obtain rfl : p :: q = rest := hq
    exact ⟨fun _ => ha, absurd hmids.symm⟩
  | cons mid mids =>
    obtain ⟨rfl, rfl⟩ := cons.inj hq
    refine ⟨fun hzero => absurd (hmids.trans hzero) (Nat.succ_ne_zero _), fun _ =>
      ⟨hchunks p mem_cons_self, { h with
        aligned := ⟨mids, rest, rfl, ?_, (forall_mem_cons.mp hchunks).2, { ha with }⟩ }⟩⟩
    rw [← hmids]
    rfl

/-- What may be put into the tree: nothing is committed ahead of its launch, and no token
outside the vocabulary lies at a committed position. -/
def Insertable (v : Verdict) (extra : ℕ) (r : Req G) (tokens : List Token) : Prop :=
  v.isInsert = true → extra = 0 ∧ VocabSafe r tokens

theorem Req.Ended.whole (hended : Req.Ended cfg.grammar r r₁ n)
    (hcut : kept = p.tokens ∨ Req.CutShort cfg.grammar r kept) (hun : r₁.finished = false) :
    r₁ = r ∧ kept = p.tokens := by
  refine ⟨hended.unchanged hun, hcut.resolve_right fun hshort => ?_⟩
  have := hended.must (hshort.imp id And.left)
  cases hun.symm.trans this

theorem Aligned.handed {grammar : Option G}
    {toFinish : Option FinishReason} (h : Aligned cfg r (p :: q) extra) (hq : q.length ≤ 1)
    (hholds : r.holdsKv = true) (hkept : kept <+: p.tokens) (hn : CountedAs p n kept)
    (hcut : kept = p.tokens ∨ Req.CutShort cfg.grammar (r.appended n kept grammar toFinish) kept)
    (hsafe : Insertable v extra { r with
      kvCommittedLen := r.kvCommittedLen + n, grammar := grammar, toFinish := toFinish } kept)
    (hended : Req.Ended cfg.grammar (r.appended n kept grammar toFinish) r₁ kept.length) :
    ∀ e ∈ (r₁.releaseKvCache v.isInsert v.stripped).2, e.Sound := by
  cases hinsert : v.isInsert with
  | false =>
    intro e he
    have hnone : (r₁.releaseKvCache false v.stripped).2 = [] := by
      unfold releaseKvCache
      split <;> rfl
    rw [hnone] at he
    exact absurd he not_mem_nil
  | true =>
    obtain ⟨rfl, hvocab⟩ := hsafe hinsert
    obtain ⟨hseq, hle⟩ := h.committed_le hq
    have hcounted : r.kvCommittedLen + n ≤ r.seqLen ∧
        r.kvCommittedLen + n ≤ (r.originInputIds ++ (r.outputIds ++ kept)).length := by
      simp only [length_append] at hle ⊢
      rcases hn with ⟨rfl, rfl⟩ | ⟨rfl, hverify⟩
      · omega
      · have := hkept.length_le
        rw [uncounted_verify hverify] at hseq hle
        omega
    obtain ⟨dropped, hdropped⟩ := hkept
    have hall : r.originInputIds ++ (r.outputIds ++ kept) ++ (dropped ++ sampled q) =
        r.originInputIds ++ r.outputIds ++ sampled (p :: q) := by
      rw [sampled_cons, ← hdropped]
      simp only [append_assoc]
    have hempty : kept = [] → toFinish.isSome = true := by
      intro hnil
      have hshort : kept ≠ p.tokens := fun heq =>
        (h.formed p mem_cons_self).nonempty (heq.symm.trans hnil)
      rcases hcut.resolve_left hshort with hto | hterm
      · exact hto
      · exact absurd hnil hterm.2
    exact hended.release_sound rfl hempty hholds
      (fun i hi => (h.row i (lt_of_lt_of_le hi hcounted.1)).trans (congrArg (·[i]?) hall).symm)
      hcounted.2 (hvocab hholds)

theorem Running.appended (h : Running cfg r (p :: q) extra) (ha : Aligned cfg r (p :: q) extra)
    (hinflight : r.inflightMiddleChunks = 0) (grammar : Option G) (toFinish : Option FinishReason) :
    Running cfg (r.appended (p.uncounted cfg) p.tokens grammar toFinish) q extra :=
  ⟨h.holds, h.unfinished, h.resident, h.ended,
    h.fill.trans ((prefix_append_right_inj _).mpr (prefix_append _ _)),
    [], q, rfl, hinflight.symm, fun _ hp => absurd hp not_mem_nil, ha.append grammar toFinish⟩

theorem Running.cacheUnfinished {sources : List ℕ} (h : Running cfg r q extra)
    (hsound : ∀ h ∈ cached, h.Sound) (hrow : ∀ i < r.extendEnd, r.row i = r.fillIds[i]?)
    (hcache : r.cacheUnfinishedReq cfg cached sources = some (r', cached')) :
    Running cfg r' q extra ∧ r'.pending = r.pending ∧ ∀ h ∈ cached', h.Sound := by
  obtain ⟨⟨row, rfl, hbelow, habove⟩, hsound'⟩ :=
    cacheUnfinishedReq_spec hsound h.ended.le hrow hcache
  have hkeep : row = r.row := by
    funext i
    by_cases hi : i < r.extendEnd
    · rw [hbelow i hi, hrow i hi]
    · exact habove i (not_lt.mp hi)
  subst hkeep
  obtain ⟨mids, rest, hq, hmids, hchunks, ha⟩ := h.aligned
  exact ⟨{ h with aligned := ⟨mids, rest, hq, hmids, hchunks, { ha with }⟩ }, rfl, hsound'⟩

theorem releaseKvCache_fst (isInsert stripped : Bool) :
    (r.releaseKvCache isInsert stripped).1 = { r with holdsKv := false } := by
  unfold releaseKvCache
  split
  · rfl
  · rename_i hk
    rw [← Bool.not_eq_true _ |>.mp hk]

/-! ## The results of a running request -/

def RunsOrDone (cfg : Config G) (r : Req G) (q : List Pending) (extra : ℕ) : Prop :=
  Running cfg r q extra ∨ (r.holdsKv = false ∧ r.finished = true)

theorem RunsOrDone.keep (h : RunsOrDone cfg r q extra) (toFinish : Option FinishReason)
    (grammar : Option G) : RunsOrDone cfg { r with toFinish := toFinish, grammar := grammar } q extra :=
  h.imp (Running.keep toFinish grammar r.pending) id

theorem Running.finishPrefill (h : Running cfg r (p :: q) extra)
    (hinflight : r.inflightMiddleChunks = 0) (hq : q.length ≤ 1)
    (hkind : p.kind = .extend ∨ p.kind = .mixed) (hsafe : Insertable v extra r p.tokens)
    (hsound : ∀ h ∈ cached, h.Sound) (hproc : r.finishPrefill cfg v cached p = some (r', cached')) :
    RunsOrDone cfg r' q extra ∧ r'.pending = r.pending ∧ ∀ h ∈ cached', h.Sound := by
  have ha := h.next.1 hinflight
  have hverify : p.kind ≠ .verify := by
    rcases hkind with hk | hk <;> rw [hk] <;> decide
  have hone : p.tokens.length = 1 := (ha.formed p mem_cons_self).single hverify
  obtain ⟨r₁, hr₁⟩ : ∃ r₁, r₁ = { r with
    outputIds := r.outputIds ++ p.tokens }.updateFinishState cfg.grammar v.str 1 := ⟨_, rfl⟩
  have hended : Req.Ended cfg.grammar (r.appended 0 p.tokens r.grammar r.toFinish) r₁ 1 := by
    rw [hr₁]
    exact Req.ended_updateFinishState (r := r.appended 0 p.tokens r.grammar r.toFinish) h.unfinished v.str 1
  unfold Req.finishPrefill at hproc
  rw [← hr₁] at hproc
  dsimp only at hproc
  rw [← hone] at hended
  have hhanded := ha.handed hq h.holds prefix_rfl (.inl ⟨rfl, rfl⟩) (.inl rfl) hsafe hended
  split at hproc
  · rename_i hfin
    cases hproc
    rw [releaseKvCache_fst]
    refine ⟨.inr ⟨rfl, hfin⟩, hended.same.pending, fun e he => ?_⟩
    rcases mem_append.mp he with he | he
    · exact hsound e he
    · exact hhanded e he
  rename_i hfin
  obtain ⟨rfl, -⟩ := hended.whole (.inl (rfl : p.tokens = p.tokens)) (Bool.not_eq_true _ |>.mp hfin)
  have hrun := h.appended ha hinflight r.grammar r.toFinish
  split at hproc
  · rename_i hmixed
    cases hproc
    unfold Pending.uncounted at hrun
    rw [hmixed] at hrun
    split_ifs with hspec
    all_goals
      simp only [hspec] at hrun
      exact ⟨.inl hrun, rfl, hsound⟩
  rename_i hmixed
  have hextend := hkind.resolve_right hmixed
  have huncounted : p.uncounted cfg = 0 := by
    simp only [Pending.uncounted]
  rw [huncounted] at hrun
  split at hproc
  · -- the prompt is what the fill ids were, and all of it is written
    have hrow : ∀ i < r.extendEnd, r.row i = r.fillIds[i]? := by
      intro i hi
      have hfill := ha.prompt p rfl hextend
      have hlt : i < (r.originInputIds ++ r.outputIds).length := by
        rwa [← hfill, ← h.ended]
      have hlen := ha.length
      simp only [sampled_cons, length_append] at hlen
      have hseq : i < r.seqLen := by
        rw [length_append] at hlt
        omega
      rw [ha.row i hseq, getElem?_append_left hlt, hfill]
    obtain ⟨hrun, hpending, hsound'⟩ := hrun.cacheUnfinished hsound hrow hproc
    exact ⟨.inl hrun, hpending, hsound'⟩
  · cases hproc
    exact ⟨.inl hrun, rfl, hsound⟩

theorem Running.processPrefill (h : Running cfg r (p :: q) extra) (hq : q.length ≤ 1)
    (hkind : p.kind = .extend ∨ p.kind = .mixed) (hsafe : Insertable v extra r p.tokens)
    (hsound : ∀ h ∈ cached, h.Sound)
    (hproc : r.processBatchResultPrefill cfg v cached p = some (r', cached')) :
    RunsOrDone cfg r' q extra ∧ r'.pending = r.pending ∧ ∀ h ∈ cached', h.Sound := by
  unfold processBatchResultPrefill at hproc
  rw [if_neg (by simp [h.unfinished, h.resident])] at hproc
  split at hproc
  · rename_i hinflight
    split at hproc
    · cases hproc
    rename_i r₁ cached₁ hfinish
    cases hproc
    obtain ⟨hruns, hpending, hsound'⟩ := h.finishPrefill hinflight hq hkind hsafe hsound hfinish
    split
    · exact ⟨hruns, hpending, hsound'⟩
    · obtain ⟨⟨grammar, toFinish, haccept⟩, -⟩ := r₁.acceptGrammarTokens_spec cfg.grammar p.tokens
      rw [haccept]
      exact ⟨hruns.keep toFinish grammar, hpending, hsound'⟩
  · rename_i hinflight
    cases hproc
    exact ⟨.inl (h.next.2 hinflight).2, rfl, hsound⟩

/-- The memo of a result whose grammar is already advanced. -/
def Memo (cfg : Config G) (r : Req G) (p : Pending) : Prop :=
  p.grammarAdvanced = true → p.kind = .verify → r.grammar.isSome = true → ∃ kept, p.retained = some kept ∧
    kept <+: p.tokens ∧ (kept = p.tokens ∨ Req.CutShort cfg.grammar r kept)

theorem advanceGrammarFsm_spec (hun : r.finished = false) (hres : r.isRetracted = false)
    (hmemo : Memo cfg r p) : ∃ grammar toFinish retained advanced,
      r.advanceGrammarFsm cfg.grammar p = ({ r with grammar := grammar, toFinish := toFinish },
        { p with retained := retained, grammarAdvanced := advanced }) ∧
      Memo cfg { r with grammar := grammar, toFinish := toFinish }
        { p with retained := retained, grammarAdvanced := advanced } ∧
      (p.kind = .verify → advanced = true ∨ grammar.isNone = true) := by
  unfold advanceGrammarFsm
  split
  · rename_i hguard
    refine ⟨r.grammar, r.toFinish, p.retained, p.grammarAdvanced, rfl, hmemo, fun _ => hguard⟩
  split
  · rename_i hkind
    exact ⟨r.grammar, r.toFinish, p.retained, p.grammarAdvanced, rfl, hmemo,
      fun hverify => nomatch hkind.symm.trans hverify⟩
  · rw [if_neg (by simp [hun, hres])]
    obtain ⟨⟨grammar, toFinish, haccept⟩, hle, hcut⟩ := r.acceptGrammarTokens_spec cfg.grammar p.tokens
    rw [haccept] at hcut
    refine ⟨grammar, toFinish, some _, true, ?_, fun _ _ _ => ⟨_, rfl, hle, hcut⟩, fun _ => .inl rfl⟩
    rw [← haccept]
  · rename_i hno
    have hmemo' : ∀ r' retained advanced, Memo cfg r'
        { p with retained := retained, grammarAdvanced := advanced } := fun _ _ _ _ hkind =>
      absurd hkind hno
    split
    · exact ⟨r.grammar, r.toFinish, p.retained, true, rfl, hmemo' _ _ _, fun hkind => absurd hkind hno⟩
    · obtain ⟨⟨grammar, toFinish, haccept⟩, -⟩ := r.acceptGrammarTokens_spec cfg.grammar p.tokens
      exact ⟨grammar, toFinish, p.retained, true, by rw [haccept], hmemo' _ _ _,
        fun hkind => absurd hkind hno⟩

/-- The tokens that a verify step commits: all of its run, or the request is about to
end. -/
theorem resolveSpecV2Tokens_spec (hun : r.finished = false)
    (hres : r.isRetracted = false) (hkind : p.kind = .verify) (hmemo : Memo cfg r p)
    (h : r.resolveSpecV2Tokens cfg p = some (r₁, kept)) : ∃ grammar toFinish, r₁ = { r with
        kvCommittedLen := r.kvCommittedLen + kept.length, grammar := grammar, toFinish := toFinish } ∧
      kept <+: p.tokens ∧ (kept = p.tokens ∨ Req.CutShort cfg.grammar r₁ kept) := by
  obtain ⟨grammar, toFinish, retained, advanced, hadvance, hmemo', hverify⟩ :=
    advanceGrammarFsm_spec hun hres hmemo
  unfold resolveSpecV2Tokens at h
  rw [hadvance] at h
  dsimp only at h
  rw [if_neg (by simp [hres]; simpa [finished] using hun)] at h
  split at h
  · cases h
  rename_i tokens htokens
  obtain ⟨rfl, rfl⟩ := Prod.mk.inj (some.inj h)
  refine ⟨grammar, toFinish, rfl, ?_⟩
  split_ifs at htokens with hsome
  · have hadvanced : advanced = true := (hverify hkind).resolve_right (by
      rw [isNone_eq_false_iff.mpr hsome]
      exact Bool.false_ne_true)
    obtain ⟨kept, hretained, hle, hcut⟩ := hmemo' hadvanced hkind hsome
    obtain rfl : kept = tokens := some.inj (hretained.symm.trans htokens)
    exact ⟨hle, hcut⟩
  · cases htokens
    exact ⟨prefix_rfl, .inl rfl⟩

/-- One iteration of the decode loop, for a request that is running. -/
theorem Running.commitTokens {grammar : Option G}
    {toFinish : Option FinishReason} (h : Running cfg r (p :: q) extra) (hinflight : r.inflightMiddleChunks = 0)
    (hq : q.length ≤ 1) (hkept : kept <+: p.tokens) (hn : CountedAs p n kept)
    (hwhole : kept = p.tokens → n = p.uncounted cfg)
    (hcut : kept = p.tokens ∨ Req.CutShort cfg.grammar (r.appended n kept grammar toFinish) kept)
    (hsafe : Insertable v extra { r with
      kvCommittedLen := r.kvCommittedLen + n, grammar := grammar, toFinish := toFinish } kept)
    (hsound : ∀ h ∈ cached, h.Sound)
    (hcommit : { r with
      kvCommittedLen := r.kvCommittedLen + n, grammar := grammar
      toFinish := toFinish }.commitTokens cfg v cached kept = (r', cached')) :
    RunsOrDone cfg r' q extra ∧ r'.pending = r.pending ∧ ∀ h ∈ cached', h.Sound := by
  have ha := h.next.1 hinflight
  obtain ⟨r₁, hr₁⟩ : ∃ r₁, r₁ = { r with
      kvCommittedLen := r.kvCommittedLen + n, grammar := grammar, toFinish := toFinish
      outputIds := r.outputIds ++ kept }.updateFinishState cfg.grammar v.str kept.length := ⟨_, rfl⟩
  have hended : Req.Ended cfg.grammar (r.appended n kept grammar toFinish) r₁ kept.length := by
    rw [hr₁]
    exact ended_updateFinishState (r := r.appended n kept grammar toFinish) h.unfinished v.str _
  have hhanded := ha.handed hq h.holds hkept hn hcut hsafe hended
  have hout : RunsOrDone cfg
      (if r₁.finished then r₁.releaseKvCache v.isInsert v.stripped else (r₁, [])).1 q extra ∧
      (if r₁.finished then r₁.releaseKvCache v.isInsert v.stripped else (r₁, [])).1.pending = r.pending ∧
      ∀ e ∈ (if r₁.finished then r₁.releaseKvCache v.isInsert v.stripped else (r₁, [])).2, e.Sound := by
    split_ifs with hfin
    · refine ⟨.inr ?_, ?_, hhanded⟩
      · rw [releaseKvCache_fst]
        exact ⟨rfl, hfin⟩
      · rw [releaseKvCache_fst]
        exact hended.same.pending
    · obtain ⟨hsame, hall⟩ := hended.whole hcut (Bool.not_eq_true _ |>.mp hfin)
      refine ⟨.inl ?_, hended.same.pending, fun _ he => absurd he not_mem_nil⟩
      rw [hsame, hall, hwhole hall]
      exact h.appended ha hinflight grammar toFinish
  unfold Req.commitTokens at hcommit
  rw [if_neg (by simp [h.resident]; simpa [Req.finished] using fun _ => h.unfinished),
    ← hr₁] at hcommit
  dsimp only at hcommit
  cases hcommit
  obtain ⟨hruns, hpending, hnew⟩ := hout
  have hsound' : ∀ e ∈ cached ++ _, Handed.Sound e := fun e he =>
    (mem_append.mp he).elim (hsound e) (hnew e)
  split
  · exact ⟨hruns, hpending, hsound'⟩
  obtain ⟨⟨grammar, toFinish, haccept⟩, -⟩ := acceptGrammarTokens_spec cfg.grammar
    (if r₁.finished then r₁.releaseKvCache v.isInsert v.stripped else (r₁, [])).1 kept
  rw [haccept]
  exact ⟨hruns.keep toFinish grammar, hpending, hsound'⟩

theorem Running.process (h : Running cfg r (p :: q) extra) (hq : q.length ≤ 1)
    (hmemo : Memo cfg r p)
    (hsafe : ∀ r₁ tokens, r.counted cfg p = some (r₁, tokens) → Insertable v extra r₁ tokens)
    (hsound : ∀ h ∈ cached, h.Sound)
    (hproc : r.processBatchResult cfg v cached (some p) = some (r', cached')) :
    RunsOrDone cfg r' q extra ∧ r'.pending = r.pending ∧ ∀ h ∈ cached', h.Sound := by
  have hsampled : p.kind ≠ .extend → r.inflightMiddleChunks = 0 ∧ p.Formed cfg := by
    intro hkind
    have hzero : r.inflightMiddleChunks = 0 := by
      by_contra hne
      exact hkind (h.next.2 hne).1
    exact ⟨hzero, (h.next.1 hzero).formed p mem_cons_self⟩
  unfold processBatchResult at hproc
  unfold counted at hsafe
  cases hkind : p.kind with
  | extend =>
    simp only [hkind] at hproc hsafe
    exact h.processPrefill hq (.inl hkind) (hsafe r p.tokens rfl) hsound hproc
  | mixed =>
    simp only [hkind] at hproc hsafe
    exact h.processPrefill hq (.inr hkind) (hsafe r p.tokens rfl) hsound hproc
  | decode =>
    simp only [hkind, processBatchResultDecode] at hproc hsafe
    obtain ⟨hzero, hformed⟩ := hsampled (by rw [hkind]; decide)
    rw [hformed.decode hkind] at hproc
    have huncounted : 0 = p.uncounted cfg := by
      simp only [Pending.uncounted, hkind]
    exact h.commitTokens hzero hq prefix_rfl (.inl ⟨rfl, rfl⟩) (fun _ => huncounted) (.inl rfl)
      (hsafe r p.tokens rfl) hsound (some.inj hproc)
  | verify =>
    simp only [hkind, processBatchResultDecode] at hproc hsafe
    obtain ⟨hzero, hformed⟩ := hsampled (by rw [hkind]; decide)
    rw [if_pos (hformed.verify hkind)] at hproc
    split at hproc
    · cases hproc
    rename_i r₁ kept hresolve
    have hvocab := hsafe r₁ kept hresolve
    obtain ⟨grammar, toFinish, rfl, hle, hcut⟩ :=
      resolveSpecV2Tokens_spec h.unfinished h.resident hkind hmemo hresolve
    refine h.commitTokens hzero hq hle (.inr ⟨rfl, hkind⟩) (fun hall => ?_) hcut hvocab hsound
      (some.inj hproc)
    rw [hall, uncounted_verify hkind]

/-! ## The other phases -/

theorem Chunked.process {written middle : ℕ} (h : Chunked r (p :: q) written middle)
    (hproc : r.processBatchResult cfg v cached (some p) = some (r', cached')) :
    cached' = cached ∧ r' = { r with inflightMiddleChunks := r.inflightMiddleChunks - 1 } ∧
      Chunked r' q written middle := by
  have hkind := h.chunks p mem_cons_self
  have hinflight := h.inflight
  rw [length_cons] at hinflight
  unfold processBatchResult at hproc
  simp only [hkind, processBatchResultPrefill] at hproc
  rw [if_neg (by simp [h.unfinished, h.resident]), if_neg (by omega)] at hproc
  cases hproc
  refine ⟨rfl, rfl, { h with inflight := ?_, chunks := (forall_mem_cons.mp h.chunks).2 }⟩
  change q.length + middle = r.inflightMiddleChunks - 1
  omega

theorem advanceGrammarFsm_late (gr : Grammar G) (p : Pending)
    (hskip : (r.isRetracted || r.finished) = true) :
    ∃ advanced, r.advanceGrammarFsm gr p = (r, { p with grammarAdvanced := advanced }) := by
  unfold advanceGrammarFsm
  split
  · exact ⟨p.grammarAdvanced, rfl⟩
  split
  · exact ⟨p.grammarAdvanced, rfl⟩
  · exact ⟨true, rfl⟩
  · exact ⟨true, if_pos (by rw [hskip]; rfl)⟩

theorem resolveSpecV2Tokens_late (hskip : (r.isRetracted || r.finished) = true) :
    r.resolveSpecV2Tokens cfg p = some (r, p.tokens) := by
  obtain ⟨advanced, hadvance⟩ := advanceGrammarFsm_late cfg.grammar p hskip
  unfold resolveSpecV2Tokens
  rw [hadvance]
  exact if_pos hskip

theorem process_late (hoverlap : cfg.overlap = true) (hlate : r.finished = true ∨ r.isRetracted = true)
    (hproc : r.processBatchResult cfg v cached (some p) = some (r', cached')) :
    cached' = cached ∧ (r' = r ∨ (r.isRetracted = false ∧
      r' = { r with inflightMiddleChunks := r.inflightMiddleChunks - 1 })) := by
  have hskip : (r.isRetracted || r.finished) = true := by
    rcases hlate with h | h <;> simp [h]
  have hcommit : ∀ tokens, r.commitTokens cfg v cached tokens = (r, cached) := fun tokens =>
    if_pos (by rw [hoverlap, Bool.or_comm, hskip]; rfl)
  have hprefill : r.processBatchResultPrefill cfg v cached p = some (r', cached') →
      cached' = cached ∧ (r' = r ∨ (r.isRetracted = false ∧
        r' = { r with inflightMiddleChunks := r.inflightMiddleChunks - 1 })) := by
    intro hproc
    unfold processBatchResultPrefill at hproc
    split at hproc
    · cases hproc
      exact ⟨rfl, .inl rfl⟩
    rename_i hgoes
    simp only [Bool.or_eq_true, Bool.and_eq_true, decide_eq_true_eq, not_or, not_and,
      Bool.not_eq_true] at hgoes
    rw [if_neg (hgoes.1 (hlate.resolve_right (by rw [hgoes.2]; exact Bool.false_ne_true)))] at hproc
    cases hproc
    exact ⟨rfl, .inr ⟨hgoes.2, rfl⟩⟩
  have hdecode : r.processBatchResultDecode cfg v cached p = some (r', cached') →
      cached' = cached ∧ r' = r := by
    intro hproc
    unfold processBatchResultDecode at hproc
    split at hproc
    · rw [resolveSpecV2Tokens_late hskip] at hproc
      dsimp only at hproc
      rw [hcommit] at hproc
      cases hproc
      exact ⟨rfl, rfl⟩
    · rw [hcommit] at hproc
      cases hproc
      exact ⟨rfl, rfl⟩
  unfold processBatchResult at hproc
  dsimp only at hproc
  split at hproc
  · exact hprefill hproc
  · exact hprefill hproc
  · exact (hdecode hproc).imp id .inl
  · exact (hdecode hproc).imp id .inl

theorem Phase.process (h : Phase cfg r (p :: q)) (hq : q.length ≤ 1)
    (hsync : cfg.overlap = false → q = [])
    (hmemo : r.finished = false → r.isRetracted = false → Memo cfg r p)
    (hsafe : ∀ r₁ tokens, r.counted cfg p = some (r₁, tokens) → Insertable v 0 r₁ tokens)
    (hsound : ∀ h ∈ cached, h.Sound)
    (hproc : r.processBatchResult cfg v cached (some p) = some (r', cached')) :
    Phase cfg r' q ∧ r'.pending = r.pending ∧ (∀ h ∈ cached', h.Sound) ∧
      (r'.holdsKv = false → r'.finished = false → r' = r) := by
  cases h with
  | done holds finished sync =>
    have hoverlap : cfg.overlap = true := by
      by_contra hno
      exact cons_ne_nil _ _ (sync (Bool.not_eq_true _ |>.mp hno))
    obtain ⟨rfl, rfl | ⟨-, rfl⟩⟩ := process_late hoverlap (.inl finished) hproc
    · exact ⟨.done holds finished hsync, rfl, hsound, fun _ _ => rfl⟩
    · exact ⟨.done holds finished hsync, rfl, hsound,
        fun _ hun => nomatch finished.symm.trans hun⟩
  | waiting holds unfinished inflight fill dropped =>
    obtain ⟨hres, hoverlap⟩ := dropped.resolve_left (cons_ne_nil _ _)
    obtain ⟨rfl, rfl | ⟨hres', -⟩⟩ := process_late hoverlap (.inr hres) hproc
    · exact ⟨.waiting holds unfinished inflight fill (.inr ⟨hres, hoverlap⟩), rfl, hsound, fun _ _ => rfl⟩
    · exact nomatch hres.symm.trans hres'
  | chunked chunk middle =>
    obtain ⟨rfl, rfl, hchunk⟩ := chunk.process hproc
    exact ⟨.chunked hchunk middle, rfl, hsound,
      fun hno => nomatch chunk.holds.symm.trans hno⟩
  | running run =>
    obtain ⟨hrun | ⟨hheld, hfin⟩, hpending, hsound'⟩ := run.process hq
      (hmemo run.unfinished run.resident) hsafe hsound hproc
    · exact ⟨.running hrun, hpending, hsound', fun hno => nomatch hrun.holds.symm.trans hno⟩
    · exact ⟨.done hheld hfin hsync, hpending, hsound',
        fun _ hun => nomatch hfin.symm.trans hun⟩

end SparkInfer.Commit
