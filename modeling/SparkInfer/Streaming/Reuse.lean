import SparkInfer.Streaming.Iterations

/-!
# A turn starts from written KV

Between turns the slot of a session holds KV of the tokens that the next turn begins with,
in every run whose turns end with committed positions that the launched forwards have
reached.
-/

namespace SparkInfer.Streaming.Turns

open Commit Option List Function

variable {G : Type} {cfg : Config G}

/-! ## Events of a session -/

/-- An event after which the session waits for its next turn leaves only committed positions
that the launched forwards have reached, and no token of them was replaced. -/
structure SafeEvent (cfg : Config G) (s : Session G) (cached : List Handed) (event : Event G) : Prop where
  reached : cfg.spec = true → ∀ s' cached', s.step cfg cached event = some (s', cached') → s'.turn = none →
    ∀ slot ∈ s'.slot, slot.kvCommittedLen ≤ slot.seqLen
  vocab : ∀ step, event = .iterate step → ∀ t s₁ t₁ cached₁, s.turn = some t →
    s.schedule cfg step (t.abort step.it.abort) cached = some (.goes s₁ t₁ cached₁) →
    ∀ s' cached', s.iterate cfg step cached = some (s', cached') → s'.turn = none → ∀ slot ∈ s'.slot,
    ∀ p ∈ (t₁.req.ready cfg step.it).2, ∀ r tokens,
      (t₁.req.ready cfg step.it).1.counted cfg p = some (r, tokens) → ∀ j x, tokens[j]? = some x →
      r.outOfVocab x = true → slot.kvCommittedLen ≤ r.originInputIds.length + r.outputIds.length + j

section Events

variable {s s' : Session G} {cached cached' : List Handed} {step : Step}

theorem iterate_inv (h : s.iterate cfg step cached = some (s', cached')) : ∃ t, s.turn = some t ∧
    (s.schedule cfg step (t.abort step.it.abort) cached = some (.leaves s') ∧ cached' = cached ∨
    ∃ s₁ t₁ cached₁ r, s.schedule cfg step (t.abort step.it.abort) cached = some (.goes s₁ t₁ cached₁) ∧
      (t₁.req.ready cfg step.it).1.processBatchResult cfg (s₁.verdict step.it.verdict) cached₁
        (t₁.req.ready cfg step.it).2 = some (r, cached') ∧
      ((finalReq cfg step.it r).finished = true ∧
        step.it.verdict.str.located (finalReq cfg step.it r).outputIds.length = true ∧
        s' = s₁.finishTurn cfg step.floored { t₁ with req := finalReq cfg step.it r } ∨
      (finalReq cfg step.it r).finished = false ∧
        s' = { s₁ with turn := some { t₁ with req := finalReq cfg step.it r } })) := by
  unfold Session.iterate at h
  split at h
  · cases h
  rename_i t hturn
  refine ⟨t, hturn, ?_⟩
  split at h
  · cases h
  · rename_i s₁ hschedule
    cases h
    exact .inl ⟨hschedule, rfl⟩
  rename_i s₁ t₁ cached₁ hschedule
  refine .inr ⟨s₁, t₁, cached₁, ?_⟩
  split at h
  · cases h
  rename_i r cached₂ hproc
  dsimp only at h
  split at h
  · rename_i hfin
    split at h
    · rename_i hlocated
      cases h
      exact ⟨r, hschedule, hproc, .inl ⟨hfin, hlocated, rfl⟩⟩
    · cases h
  · rename_i hfin
    cases h
    exact ⟨r, hschedule, hproc, .inr ⟨Bool.not_eq_true _ |>.mp hfin, rfl⟩⟩

variable (h : s.Ok cfg)
include h

theorem Session.Ok.of_turn {t : Turn G} (hturn : s.turn = some t) :
    TurnOk cfg t ∧ (t.req.holdsKv = false → Waits cfg s t) := by
  unfold Session.Ok at h
  rwa [hturn] at h

theorem Session.Ok.of_none (hturn : s.turn = none) : ∀ slot ∈ s.slot, slot.Holds s.lastIds := by
  unfold Session.Ok at h
  rwa [hturn] at h

omit h in
theorem finishTurn_turn {floored : Bool} {t : Turn G} : (s.finishTurn cfg floored t).turn = none := by
  unfold Session.finishTurn
  split <;> rfl

theorem Session.Ok.iterate (hsound : ∀ h ∈ cached, h.Sound)
    (hsafe : SafeEvent cfg s cached (.iterate step)) (hit : s.iterate cfg step cached = some (s', cached')) :
    s'.Ok cfg ∧ ∀ h ∈ cached', h.Sound := by
  obtain ⟨t, hturn, hcases⟩ := iterate_inv hit
  obtain ⟨hok₀, hwaits₀⟩ := h.of_turn hturn
  obtain ⟨hok, hwaits⟩ := hok₀.abort hwaits₀ step.it.abort
  have hreached := fun hspec hnone => hsafe.reached hspec s' cached' hit hnone
  obtain ⟨hschedule, rfl⟩ | ⟨s₁, t₁, cached₁, r, hschedule, hproc, hout⟩ := hcases
  · exact ⟨schedule_leaves hok hwaits hschedule hreached, hsound⟩
  obtain ⟨hgoing, hwaits₁⟩ := schedule_goes hok hwaits hsound hschedule
  obtain ⟨hprocessed, hsettled, hsound'⟩ := hgoing.process hok rfl hproc
  refine ⟨?_, hsound'⟩
  obtain ⟨hfin, hlocated, rfl⟩ | ⟨hun, rfl⟩ := hout
  · -- the turn has ended: the slot takes its record over
    obtain ⟨hjob, -⟩ := finalReq_frame cfg step.it r
    have hfin' : r.finished = true := hjob.finished.symm.trans hfin
    obtain ⟨p, q, extra, hresult, hrun, hmemo, hspan, hrow, hno⟩ := hprocessed.ended hfin'
    have hvocab := hsafe.vocab step rfl t s₁ t₁ cached₁ hturn hschedule _ _ hit finishTurn_turn
    have hready := hgoing.job.trans (sameJob_ready cfg step.it t₁.req)
    have hholds : t₁.req.holdsKv = true := (ready_keep cfg step.it t₁.req).1.symm.trans hrun.holds
    unfold finishTurn at hvocab hreached ⊢
    split_ifs with hreason
    · exact fun _ hslot => nomatch hslot
    rw [if_neg hreason] at hvocab hreached
    intro slot hslot
    cases hslot
    rw [hresult] at hproc
    refine finished_holds hrun hmemo (hready.finishedLen.trans hok.finishedLen) (hready.aborts hok.aborts)
      hproc hfin' hjob (fun habort => hreason (hjob.reason.trans habort)) (hjob.output ▸ hlocated)
      (final_row (hrun.ends hproc hfin') hspan hrow hno) ?_ (hvocab _ rfl p hresult)
    cases hspec : cfg.spec with
    | false =>
      have halloc := (Turn.cacheFinishedReq_le cfg step.floored { t₁ with req := finalReq cfg step.it r }).2
      calc _ ≤ t₁.kvAllocatedLen := halloc
        _ ≤ (t₁.req.launch cfg step.it.action).seqLen := hgoing.plain hspec hholds
        _ = (finalReq cfg step.it r).seqLen := (final_reach hspan).symm
    | true => exact hreached hspec rfl _ rfl
  · exact hgoing.continues hok hprocessed hsettled hun fun hfree => ⟨(hwaits₁ hfree).fresh, (hwaits₁ hfree).saved⟩

theorem Session.Ok.createReq {params : Params} {inputIds : List Token} {grammar : Option G}
    {carryFill aborted : Bool} (hcreate : s.createReq params inputIds grammar carryFill aborted = some s') :
    s'.Ok cfg := by
  unfold Session.createReq at hcreate
  split at hcreate
  · cases hcreate
  rename_i hnone
  have hslot := h.of_none (not_isSome_iff_eq_none.mp hnone)
  cases hcreate
  have hok : ∀ toFinish ids fill, (fill = [] ∨ fill = ids) →
      (∀ reason ∈ toFinish, reason = FinishReason.abort) →
      TurnOk cfg (.new params ids fill grammar toFinish) := by
    intro toFinish ids fill hfill hto
    have hfillOk : FillOk { Req.new params ids grammar toFinish with fillIds := fill } := by
      intro _ _
      rcases hfill with rfl | rfl
      · exact nil_prefix
      · exact prefix_append _ _
    exact ⟨⟨.waiting rfl rfl rfl hfillOk (.inl rfl), (fun _ hp => nomatch hp), fun _ => rfl, fun _ _ => rfl⟩, rfl,
      rfl, hto, Nat.zero_le _, (fun _ h => nomatch h), (fun h => nomatch h)⟩
  have hfill : ∀ ids, (if carryFill && !aborted then ids else []) = [] ∨
      (if carryFill && !aborted then ids else []) = (ids : List Token) := by
    intro ids
    split
    · exact .inr rfl
    · exact .inl rfl
  refine ⟨hok _ _ _ (hfill _) ?_, fun _ => ⟨fun _ => ⟨rfl, ?_, hslot⟩, (fun h => nomatch h)⟩⟩
  · split
    · exact fun _ hreason => (some.inj hreason).symm
    · exact (fun _ h => nomatch h)
  · cases aborted with
    | true => exact (fun h => nomatch h)
    | false => exact fun _ => prefix_append _ _

theorem Session.Ok.event (hsound : ∀ h ∈ cached, h.Sound) {event : Event G}
    (hsafe : SafeEvent cfg s cached event) (hstep : s.step cfg cached event = some (s', cached')) :
    s'.Ok cfg ∧ ∀ h ∈ cached', h.Sound := by
  have hreached := fun hspec hnone => hsafe.reached hspec s' cached' hstep hnone
  cases event with
  | createReq params inputIds grammar carryFill aborted =>
    obtain ⟨s₁, hcreate, heq⟩ := map_eq_some_iff.mp hstep
    cases heq
    exact ⟨h.createReq hcreate, hsound⟩
  | matchOnly cut =>
    obtain ⟨s₁, hmatch, heq⟩ := map_eq_some_iff.mp hstep
    cases heq
    refine ⟨?_, hsound⟩
    unfold matchOnly at hmatch
    split at hmatch
    · rename_i t slot hturn hslot
      obtain ⟨hok, hwaits⟩ := h.of_turn hturn
      split at hmatch
      · cases hmatch
      rename_i hfree
      have hwaits := hwaits (Bool.not_eq_true _ |>.mp hfree)
      split at hmatch
      · cases hmatch
        exact fun slot' hslot' => hwaits.holds hslot' fun hspec => hreached hspec rfl slot' hslot'
      cases hmatch
      rw [hturn]
      refine ⟨hok, fun hholds => ?_⟩
      cases hcut : t.tryMatchPrefix cfg cut slot with
      | none =>
        exact ⟨fun hsaved => ⟨(hwaits.fresh hsaved).1, (hwaits.fresh hsaved).2.1, (fun _ h => nomatch h)⟩,
          fun hsaved => ⟨(hwaits.saved hsaved).1, (fun _ h => nomatch h)⟩⟩
      | some found =>
        have hwaits' := hwaits.cut hok hholds hslot hcut
        exact ⟨hwaits'.fresh, hwaits'.saved⟩
    · cases hmatch
  | dropTurn =>
    obtain ⟨s₁, hdrop, heq⟩ := map_eq_some_iff.mp hstep
    cases heq
    refine ⟨?_, hsound⟩
    unfold dropTurn at hdrop
    split at hdrop
    · rename_i t hturn
      split at hdrop
      · cases hdrop
      rename_i hfree
      have hwaits := (h.of_turn hturn).2 (Bool.not_eq_true _ |>.mp hfree)
      cases hdrop
      exact fun slot hslot => hwaits.holds hslot fun hspec => hreached hspec rfl slot hslot
    · cases hdrop
  | grow tokens =>
    obtain ⟨s₁, hgrow, heq⟩ := map_eq_some_iff.mp hstep
    cases heq
    refine ⟨?_, hsound⟩
    unfold grow at hgrow
    split at hgrow
    · rename_i hguard
      have hnone := isNone_iff_eq_none.mp (Bool.and_eq_true_iff.mp hguard).2
      cases hgrow
      rw [hnone]
      exact fun slot hslot => (h.of_none hnone slot hslot).mono (prefix_append _ _)
    · cases hgrow
  | iterate step => exact h.iterate hsound hsafe hstep
  | release =>
    dsimp only [step] at hstep
    split at hstep
    · cases hstep
    · cases hstep
      exact ⟨(fun _ h => nomatch h), hsound⟩

end Events

/-! ## Runs -/

def World.Ok (cfg : Config G) (w : World G) : Prop :=
  State.Sound cfg w.base ∧ ∀ sid, (w.sessions sid).Ok cfg

/-- A step of an ordinary request is safe for the tree, and one of a session for its slot. -/
def SafeOp (cfg : Config G) (w : World G) : Op G → Prop
  | .request op => SafeStep cfg (w.base.reqs op.1) w.base.cached op.2
  | .session sid event => SafeEvent cfg (w.sessions sid) w.base.cached event

theorem World.Ok.step {w w' : World G} {op : Op G} (h : w.Ok cfg) (hsafe : SafeOp cfg w op)
    (hstep : w.step cfg op = some w') : w'.Ok cfg := by
  cases op with
  | request op =>
    obtain ⟨base, hit, rfl⟩ := map_eq_some_iff.mp hstep
    exact ⟨h.1.iterate hsafe hit, h.2⟩
  | session sid event =>
    obtain ⟨⟨s, cached⟩, hevent, rfl⟩ := map_eq_some_iff.mp hstep
    obtain ⟨hok, hsound⟩ := (h.2 sid).event h.1.2 hsafe hevent
    refine ⟨⟨h.1.1, hsound⟩, fun sid' => ?_⟩
    change (update w.sessions sid s sid').Ok cfg
    by_cases hsid : sid' = sid
    · rwa [hsid, update_self]
    · rw [update_of_ne hsid]
      exact h.2 sid'

def SafeRun (cfg : Config G) (init : ℕ → Req G) (ops : List (Op G)) : Prop :=
  Lib.Guarded (World.step cfg) (SafeOp cfg)
    { base := { reqs := init, cached := [] }, sessions := fun _ => .new } ops

def speculative (overlap : Bool) : Config Unit :=
  { overlap := overlap, spec := true, pageSize := 1, grammar := plainGrammar }

def twoTokens : Params :=
  { stopTokenIds := [], eosTokenIds := [], tokenizerEos := none, additionalStopTokenIds := []
    ignoreEos := false, vocabSize := none, maxNewTokens := 2 }

def turnStep (action : Action) : Op Unit :=
  .session 0 (.iterate { it := iteration action, cut := .whole, floored := false, reserve := 4 })

def turnStart (inputIds : List Token) : Op Unit :=
  .session 0 (.createReq twoTokens inputIds none false false)

/-- A prompt of one token and two generated tokens, with a rejected draft, and the next
turn.  With overlap, another verify step is launched before the end is noticed. -/
def specTurn (overlap : Bool) : List (Op Unit) :=
  [turnStart [5], turnStep (.admitted [] 1 3), turnStep (.verify [7] 0 4)] ++
    (if overlap then [turnStep (.verify [8] 0 6)] else []) ++ [turnStart [9]]

theorem safeEvent_of_turn {s : Session G} {cached : List Handed} {event : Event G}
    (h : ∀ s' cached', s.step cfg cached event = some (s', cached') → s'.turn ≠ none) :
    SafeEvent cfg s cached event := by
  refine ⟨fun _ s' cached' hstep hnone => absurd hnone (h s' cached' hstep), ?_⟩
  rintro step rfl t s₁ t₁ cached₁ - - s' cached' hit hnone
  exact absurd hnone (h s' cached' hit)

end SparkInfer.Streaming.Turns
