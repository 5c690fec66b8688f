import SparkInfer.Commit.Ready

/-!
# Only written KV enters the prefix cache

An iteration keeps the request in step with the device, and what it adds to the tree is
sound, unless a token outside the vocabulary is replaced after the next launch has used
it, or a result comes between the scheduling of a decode row and its launch.
-/

namespace SparkInfer.Commit

variable {G : Type} {cfg : Config G} {r r' : Req G} {cached cached' : List Handed} {it : Iteration}

/-! ## One iteration -/

structure SafeStep (cfg : Config G) (r : Req G) (cached : List Handed) (it : Iteration) : Prop where
  ordered : cfg.overlap = true → it.processFirst = true → it.action.commitsAhead cfg = false
  vocab : ∀ r₁ cached₁ r₂ p r₃ tokens,
    (if it.abort then r.abortRequest else r).schedule cfg cached it.action = some (r₁, cached₁) →
    r₁.ready cfg it = (r₂, some p) → r₂.counted cfg p = some (r₃, tokens) → VocabSafe r₃ tokens

theorem iterate_cases (hit : r.iterate cfg it cached = some (r', cached')) :
    ∃ r₁ cached₁ r₂ cached₂,
      (if it.abort then r.abortRequest else r).schedule cfg cached it.action = some (r₁, cached₁) ∧
      (r₁.ready cfg it).1.processBatchResult cfg it.verdict cached₁ (r₁.ready cfg it).2 =
        some (r₂, cached₂) ∧
      r' = (if cfg.overlap && it.processFirst then r₂.launch cfg it.action else r₂) ∧
      cached' = cached₂ := by
  obtain ⟨⟨r₁, cached₁⟩, hschedule, hit⟩ := Option.bind_eq_some_iff.mp hit
  obtain ⟨⟨r₂, cached₂⟩, hprocess, hit⟩ := Option.bind_eq_some_iff.mp hit
  obtain ⟨rfl, rfl⟩ := Prod.mk.inj (Option.some.inj hit)
  exact ⟨r₁, cached₁, r₂, cached₂, hschedule, hprocess, rfl, rfl⟩

theorem Settled.iterate (h : Settled cfg r) (hsafe : SafeStep cfg r cached it)
    (hsound : ∀ h ∈ cached, h.Sound) (hit : r.iterate cfg it cached = some (r', cached')) :
    Settled cfg r' ∧ ∀ h ∈ cached', h.Sound := by
  obtain ⟨r₁, cached₁, r₂, cached₂, hschedule, hprocess, rfl, rfl⟩ := iterate_cases hit
  have h₀ := h.abortRequest it.abort
  have hvocab : ∀ p ∈ (r₁.ready cfg it).2, ∀ r₃ tokens,
      (r₁.ready cfg it).1.counted cfg p = some (r₃, tokens) → Insertable it.verdict 0 r₃ tokens :=
    fun p hp r₃ tokens hcounted _ =>
      ⟨rfl, hsafe.vocab r₁ cached₁ _ p r₃ tokens hschedule (Prod.ext rfl hp) hcounted⟩
  obtain ⟨hplan, hpending, hsound₁⟩ := planned_schedule hsound h₀.phase
    (fun hholds hun => by rw [h₀.free hholds hun]; rfl) (fun hno => by rw [h₀.sync hno]; rfl) hschedule
  rw [← hpending] at hplan
  have hold : ∀ p ∈ r₁.pending, p.grammarAdvanced = false := by
    rw [hpending]
    exact h₀.fresh
  cases hoverlap : cfg.overlap with
  | false =>
    exact (readied_normal hplan hoverlap (hpending.trans (h₀.sync hoverlap))).settled hvocab hsound₁ hprocess
  | true =>
    cases hfirst : it.processFirst with
    | false =>
      exact (readied_overlap hplan hoverlap hfirst hold).settled hvocab hsound₁ hprocess
    | true =>
      exact settled_first hplan hoverlap hfirst (fun _ => hsafe.ordered hoverlap hfirst) hold hsound₁ hvocab
        hprocess

/-! ## Runs -/

def State.Sound (cfg : Config G) (s : State G) : Prop :=
  (∀ i, Settled cfg (s.reqs i)) ∧ ∀ h ∈ s.cached, h.Sound

theorem State.Sound.iterate {s s' : State G} {op : ℕ × Iteration} (h : s.Sound cfg)
    (hsafe : SafeStep cfg (s.reqs op.1) s.cached op.2) (hit : s.iterate cfg op = some s') :
    s'.Sound cfg := by
  obtain ⟨⟨r, cached⟩, hreq, hs⟩ := Option.bind_eq_some_iff.mp hit
  cases hs
  obtain ⟨hsettled, hsound⟩ := (h.1 op.1).iterate hsafe h.2 hreq
  refine ⟨fun i => ?_, hsound⟩
  change Settled cfg (Function.update s.reqs op.1 r i)
  by_cases hi : i = op.1
  · rwa [hi, Function.update_self]
  · rw [Function.update_of_ne hi]
    exact h.1 i

def Fresh (init : ℕ → Req G) : Prop :=
  ∀ i, ∃ params originInputIds grammar toFinish, init i = Req.new params originInputIds grammar toFinish

def SafeRun (cfg : Config G) (init : ℕ → Req G) (ops : List (ℕ × Iteration)) : Prop :=
  Lib.Guarded (State.iterate cfg) (fun s op => SafeStep cfg (s.reqs op.1) s.cached op.2)
    { reqs := init, cached := [] } ops

/-- Every position of what was handed to the tree holds what a launched forward wrote for
the token of the key at that position. -/
theorem handed_positions_written (cfg : Config G) (init : ℕ → Req G) (ops : List (ℕ × Iteration))
    (s : State G) (hinit : Fresh init) (hsafe : SafeRun cfg init ops) (hrun : run cfg init ops = some s) :
    ∀ h ∈ s.cached, ∀ i < h.len, ∃ t, h.key[i]? = some t ∧ h.row i = some t := by
  have hstart : State.Sound cfg { reqs := init, cached := [] } := by
    refine ⟨fun i => ?_, fun _ hmem => absurd hmem List.not_mem_nil⟩
    obtain ⟨params, originInputIds, grammar, toFinish, hi⟩ := hinit i
    change Settled cfg (init i)
    rw [hi]
    exact settled_new _ _ _ _
  have hsound := Lib.runFrom_invariant (fun _ _ _ h hstep => h.iterate hstep)
    hstart hsafe hrun
  intro h hmem i hi
  have hkey : i < h.key.length := (hsound.2 h hmem).length ▸ hi
  exact ⟨_, List.getElem?_eq_getElem hkey,
    ((hsound.2 h hmem).row i hi).trans (List.getElem?_eq_getElem hkey)⟩

/-! ## One overlapped decode -/

def plainGrammar : Grammar Unit := { acceptToken := fun _ _ => none, isTerminated := fun _ => false }

def overlapped : Config Unit := { overlap := true, spec := false, pageSize := 1, grammar := plainGrammar }

def inserting : Verdict :=
  { str := .noMatch, stripped := false, isInsert := true, caches := false, sources := [] }

def iteration (action : Action) : Iteration :=
  { abort := false, processFirst := false, barrier := false, action := action, verdict := inserting }

/-- A prompt of one token; token 2 ends the request, and the vocabulary has ten. -/
def shortReq : Req Unit :=
  .new { stopTokenIds := [], eosTokenIds := [2], tokenizerEos := none, additionalStopTokenIds := []
         ignoreEos := false, vocabSize := some 10, maxNewTokens := 8 } [5] none none

/-- The prompt samples a token, which the next launch takes as its input. -/
def sampleThenDecode (token : Token) : List (ℕ × Iteration) :=
  [(0, iteration (.admitted [] 1 token)), (0, iteration (.decode 3))]

theorem handed_positions_written_stop :
    ∃ s, run overlapped (fun _ => shortReq) (sampleThenDecode 2) = some s ∧
      s.cached.map (fun h => (h.key, h.len)) = [([5, 2], 2)] ∧
      ∀ h ∈ s.cached, ∀ i < h.len, ∃ t, h.key[i]? = some t ∧ h.row i = some t := by
  refine ⟨_, rfl, rfl, handed_positions_written overlapped (fun _ => shortReq) (sampleThenDecode 2) _
    (fun _ => ⟨_, _, _, _, rfl⟩) ?_ rfl⟩
  refine ⟨⟨(fun _ h => nomatch h), ?_⟩, ?_⟩
  · intro r₁ cached₁ r₂ p r₃ tokens h1 h2 h3
    cases h1
    cases h2
  rintro s' ⟨⟩
  refine ⟨⟨(fun _ h => nomatch h), ?_⟩, fun _ _ => trivial⟩
  intro r₁ cached₁ r₂ p r₃ tokens h1 h2 h3
  cases h1
  cases h2
  cases h3
  intro _ _ j t ht hbad
  cases j with
  | zero =>
    cases ht
    exact absurd hbad (by decide)
  | succ j => cases ht

/-- The token outside the vocabulary is written, and the end token is its key. -/
theorem handed_under_replaced_token :
    ∃ s, run overlapped (fun _ => shortReq) (sampleThenDecode 99) = some s ∧
      ¬∀ h ∈ s.cached, ∀ i < h.len, ∃ t, h.key[i]? = some t ∧ h.row i = some t := by
  refine ⟨_, rfl, fun hall => ?_⟩
  obtain ⟨t, hkey, hrow⟩ := hall _ List.mem_cons_self 1 (by decide)
  have hend : t = 2 := (Option.some.inj hkey).symm
  have hwritten : t = 99 := (Option.some.inj hrow).symm
  exact nomatch hend.symm.trans hwritten

/-- In a mixed batch whose overlap is off, the position is handed over before its launch. -/
example : (run overlapped (fun _ => shortReq)
    [(0, iteration (.admitted [] 1 2)), (0, { iteration (.mixed 3) with processFirst := true })]).map
      (fun s => s.cached.map fun h => (h.len, h.row 1)) = some [(2, none)] := rfl

end SparkInfer.Commit
