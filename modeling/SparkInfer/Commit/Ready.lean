import SparkInfer.Commit.Results

/-!
# Between the launch and its result

Between two iterations the outstanding result of a request is the one of its last
launch.  An iteration launches and processes one result, in the order the overlap
prescribes; either way the request is in step with the device when it is processed.
-/

namespace SparkInfer.Commit

open List

variable {G : Type} {cfg : Config G} {r r' : Req G} {q : List Pending} {cached cached' : List Handed}
  {it : Iteration}
variable {action : Action} {p : Pending} {v : Verdict}

structure Settled (cfg : Config G) (r : Req G) : Prop where
  phase : Phase cfg r r.pending.toList
  fresh : ∀ p ∈ r.pending, p.grammarAdvanced = false
  sync : cfg.overlap = false → r.pending = none
  free : r.holdsKv = false → r.finished = false → r.pending = none

theorem settled_new (params : Params) (originInputIds : List Token) (grammar : Option G)
    (toFinish : Option FinishReason) : Settled cfg (Req.new params originInputIds grammar toFinish) :=
  ⟨.waiting rfl rfl rfl (fun _ _ => nil_prefix) (.inl rfl), (fun _ hp => nomatch hp), fun _ => rfl,
    fun _ _ => rfl⟩

theorem Settled.abortRequest (h : Settled cfg r) (abort : Bool) :
    Settled cfg (if abort then r.abortRequest else r) := by
  unfold Req.abortRequest
  split
  · split
    · exact { h with phase := h.phase.keep _ _ _ }
    · exact h
  · exact h

/-! ## Around the launch -/

theorem launch_fresh (hnone : r.pending = none) :
    ∀ p ∈ (r.launch cfg action).pending, p.grammarAdvanced = false := by
  intro p hp
  cases action with
  | idle | park | retract | abortChunked =>
    change p ∈ r.pending at hp
    rw [hnone] at hp
    exact nomatch hp
  | admitted | chunk | decode | mixed | verify => rw [← Option.some.inj hp]

theorem Planned.launch_free (h : Planned cfg r q action) (hnone : r.pending = none)
    (hholds : (r.launch cfg action).holdsKv = false) : (r.launch cfg action).pending = none := by
  cases action with
  | idle | park | retract | abortChunked => exact hnone
  | admitted | chunk =>
    exact absurd (Chunked.holds h) (by rw [show r.holdsKv = false from hholds]; decide)
  | decode | verify => exact absurd h.1.holds (by rw [show r.holdsKv = false from hholds]; decide)
  | mixed => exact absurd (Running.holds h) (by rw [show r.holdsKv = false from hholds]; decide)

theorem Planned.keep (h : Planned cfg r q action) (pending : Option Pending) :
    Planned cfg { r with pending := pending } q action := by
  cases action with
  | idle | park | retract | abortChunked => exact Phase.keep _ _ _ h
  | admitted | chunk => exact Chunked.keep _ _ _ h
  | decode | verify => exact ⟨h.1.keep _ _ _, h.2⟩
  | mixed => exact Running.keep _ _ _ h

theorem Phase.advanced {retained : Option (List Token)} {advanced : Bool}
    (h : Phase cfg r (p :: q)) :
    Phase cfg r ({ p with retained := retained, grammarAdvanced := advanced } :: q) := by
  cases h with
  | done holds finished sync => exact .done holds finished fun ho => absurd (sync ho) (cons_ne_nil _ _)
  | waiting holds unfinished inflight fill dropped =>
    exact .waiting holds unfinished inflight fill (.inr (dropped.resolve_left (cons_ne_nil _ _)))
  | chunked chunk middle =>
    refine .chunked { chunk with chunks := ?_ } middle
    exact forall_mem_cons.mpr (forall_mem_cons.mp chunk.chunks)
  | running run =>
    refine .running { run with aligned := ?_ }
    obtain ⟨mids, rest, hq, hmids, hchunks, ha⟩ := run.aligned
    cases mids with
    | nil =>
      obtain rfl : p :: q = rest := hq
      obtain ⟨hp, hformed⟩ := forall_mem_cons.mp ha.formed
      refine ⟨[], _, rfl, hmids, hchunks, { ha with
        formed := forall_mem_cons.mpr ⟨{ hp with }, hformed⟩, prompt := fun p' hp' hkind => ?_ }⟩
      rw [← Option.some.inj hp'] at hkind
      exact ha.prompt p rfl hkind
    | cons mid mids =>
      obtain ⟨rfl, rfl⟩ := cons.inj hq
      exact ⟨_ :: mids, rest, rfl, hmids, forall_mem_cons.mpr (forall_mem_cons.mp hchunks), ha⟩

/-- The barrier inside the launch: what is processed next, with its memo. -/
theorem Phase.barrier (h : Phase cfg r (p :: q)) (hfresh : p.grammarAdvanced = false) :
    ∃ grammar toFinish p', r.advanceGrammarFsm cfg.grammar p =
        ({ r with grammar := grammar, toFinish := toFinish }, p') ∧
      Phase cfg { r with grammar := grammar, toFinish := toFinish } (p' :: q) ∧
      (r.finished = false → r.isRetracted = false →
        Memo cfg { r with grammar := grammar, toFinish := toFinish } p') := by
  have hmemo : Memo cfg r p := fun hadvanced => nomatch hfresh.symm.trans hadvanced
  by_cases hlive : r.finished = false ∧ r.isRetracted = false
  · obtain ⟨grammar, toFinish, retained, advanced, heq, hmemo', -⟩ :=
      advanceGrammarFsm_spec hlive.1 hlive.2 hmemo
    exact ⟨grammar, toFinish, _, heq, (h.keep toFinish grammar r.pending).advanced, fun _ _ => hmemo'⟩
  have hskip : (r.isRetracted || r.finished) = true := by
    cases hf : r.finished <;> cases hr : r.isRetracted <;> simp_all
  obtain ⟨advanced, heq⟩ := advanceGrammarFsm_late cfg.grammar p hskip
  exact ⟨r.grammar, r.toFinish, _, heq, h.advanced, fun hun hres => absurd ⟨hun, hres⟩ hlive⟩

/-! ## Processing -/

/-- Scheduling the action counts a position as committed before it is written. -/
def Action.commitsAhead (cfg : Config G) : Action → Bool
  | .decode _ | .mixed _ => !cfg.spec
  | _ => false

theorem Planned.process (h : Planned cfg r (p :: q) action)
    (hordered : v.isInsert = true → action.commitsAhead cfg = false) (hq : q.length ≤ 1)
    (hsync : cfg.overlap = false → q = []) (hmemo : Memo cfg r p)
    (hsafe : ∀ r₁ tokens, r.counted cfg p = some (r₁, tokens) → Insertable v 0 r₁ tokens)
    (hsound : ∀ h ∈ cached, h.Sound)
    (hproc : r.processBatchResult cfg v cached (some p) = some (r', cached')) :
    (Planned cfg r' q action ∨ (r'.holdsKv = false ∧ r'.finished = true)) ∧ r'.pending = r.pending ∧
      ∀ h ∈ cached', h.Sound := by
  cases action with
  | idle | park | retract | abortChunked =>
    obtain ⟨hphase, hpending, hsound', -⟩ :=
      Phase.process h hq hsync (fun _ _ => hmemo) hsafe hsound hproc
    exact ⟨.inl hphase, hpending, hsound'⟩
  | admitted | chunk =>
    obtain ⟨rfl, rfl, hchunk⟩ := Chunked.process h hproc
    exact ⟨.inl hchunk, rfl, hsound⟩
  | decode =>
    have hsafe' : ∀ r₁ tokens, r.counted cfg p = some (r₁, tokens) → Insertable v 1 r₁ tokens := by
      intro r₁ tokens _ hinsert
      have hspec : cfg.spec = true := by simpa [Action.commitsAhead] using hordered hinsert
      exact nomatch hspec.symm.trans h.2
    obtain ⟨hruns, hpending, hsound'⟩ := h.1.process hq hmemo hsafe' hsound hproc
    exact ⟨hruns.imp (fun hrun => ⟨hrun, h.2⟩) id, hpending, hsound'⟩
  | mixed =>
    have hsafe' : ∀ r₁ tokens, r.counted cfg p = some (r₁, tokens) →
        Insertable v (if cfg.spec then 0 else 1) r₁ tokens := by
      intro r₁ tokens hcounted hinsert
      have hspec : cfg.spec = true := by simpa [Action.commitsAhead] using hordered hinsert
      rw [if_pos hspec]
      exact hsafe r₁ tokens hcounted hinsert
    exact Running.process h hq hmemo hsafe' hsound hproc
  | verify =>
    obtain ⟨hruns, hpending, hsound'⟩ := h.1.process hq hmemo hsafe hsound hproc
    exact ⟨hruns.imp (fun hrun => ⟨hrun, h.2⟩) id, hpending, hsound'⟩

/-- The request when its result is about to be processed, after the launch of the iteration. -/
structure Readied (cfg : Config G) (r : Req G) (result : Option Pending) : Prop where
  phase : Phase cfg r (result.toList ++ r.pending.toList)
  memo : ∀ p ∈ result, r.finished = false → r.isRetracted = false → Memo cfg r p
  fresh : ∀ p ∈ r.pending, p.grammarAdvanced = false
  sync : cfg.overlap = false → r.pending = none
  free : r.holdsKv = false → r.finished = false → r.pending = none

theorem Readied.settled {result : Option Pending} (h : Readied cfg r result)
    (hsafe : ∀ p ∈ result, ∀ r₁ tokens, r.counted cfg p = some (r₁, tokens) → Insertable v 0 r₁ tokens)
    (hsound : ∀ h ∈ cached, h.Sound)
    (hproc : r.processBatchResult cfg v cached result = some (r', cached')) :
    Settled cfg r' ∧ ∀ h ∈ cached', h.Sound := by
  cases result with
  | none =>
    cases hproc
    exact ⟨{ h with }, hsound⟩
  | some p =>
    have hone : r.pending.toList.length ≤ 1 := by
      cases r.pending <;> simp
    obtain ⟨hphase, hpending, hsound', hsame⟩ := Phase.process h.phase hone
      (fun hno => by rw [h.sync hno]; rfl) (h.memo p rfl) (hsafe p rfl) hsound hproc
    refine ⟨⟨by rwa [hpending], by rw [hpending]; exact h.fresh, fun hno => hpending.trans (h.sync hno),
      fun hholds hun => ?_⟩, hsound'⟩
    obtain rfl := hsame hholds hun
    exact h.free hholds hun

section Ready

variable {r₁ : Req G} (hplan : Planned cfg r₁ r₁.pending.toList it.action)

include hplan

theorem readied_normal (hoverlap : cfg.overlap = false) (hnone : r₁.pending = none) :
    Readied cfg (r₁.ready cfg it).1 (r₁.ready cfg it).2 := by
  have hready : r₁.ready cfg it =
      ({ r₁.launch cfg it.action with pending := none }, (r₁.launch cfg it.action).pending) := by
    rw [Req.ready, if_neg (by rw [hoverlap]; decide)]
  rw [hready]
  rw [hnone] at hplan
  have hphase := hplan.launch hnone fun _ => rfl
  have hfresh : ∀ p ∈ (r₁.launch cfg it.action).pending, p.grammarAdvanced = false := launch_fresh hnone
  refine ⟨?_, fun p hp _ _ hadvanced => absurd ((hfresh p hp).symm.trans hadvanced) (by decide),
    (fun _ hp => nomatch hp), fun _ => rfl, fun _ _ => rfl⟩
  change Phase cfg { r₁.launch cfg it.action with pending := none }
    ((r₁.launch cfg it.action).pending.toList ++ [])
  rw [append_nil]
  exact hphase.keep _ _ _

theorem readied_overlap (hoverlap : cfg.overlap = true) (hlast : it.processFirst = false)
    (hold : ∀ p ∈ r₁.pending, p.grammarAdvanced = false) :
    Readied cfg (r₁.ready cfg it).1 (r₁.ready cfg it).2 := by
  have hsync : ∀ q : List Pending, cfg.overlap = false → q = [] := fun _ hno =>
    Bool.noConfusion (hoverlap.symm.trans hno)
  obtain ⟨r₀, hr₀⟩ : ∃ r₀, r₀ = { r₁ with pending := none } := ⟨_, rfl⟩
  have hnone : r₀.pending = none := by rw [hr₀]
  have hplan₀ : Planned cfg r₀ r₁.pending.toList it.action := by
    rw [hr₀]
    exact hplan.keep none
  have hphase := hplan₀.launch hnone (hsync _)
  have hfresh : ∀ p ∈ (r₀.launch cfg it.action).pending, p.grammarAdvanced = false := launch_fresh hnone
  have hfree := hplan₀.launch_free hnone
  have hready : r₁.ready cfg it = r₁.pending.elim (r₀.launch cfg it.action, none) fun result =>
      if it.barrier then
        ((r₀.launch cfg it.action).advanceGrammarFsm cfg.grammar result).map id some
      else (r₀.launch cfg it.action, some result) := by
    rw [Req.ready, if_pos hoverlap, if_neg (by rw [hlast]; decide), hr₀]
    cases r₁.pending <;> rfl
  generalize r₀.launch cfg it.action = rL at hphase hfresh hfree hready
  have hno : cfg.overlap = false → rL.pending = none := fun hno =>
    Bool.noConfusion (hoverlap.symm.trans hno)
  cases hpend : r₁.pending with
  | none =>
    rw [hpend] at hready hphase
    rw [hready]
    exact ⟨hphase, by rintro _ ⟨⟩, hfresh, hno, fun hholds _ => hfree hholds⟩
  | some p =>
    rw [hpend] at hready hphase
    have hp := hold p hpend
    rw [Option.elim_some] at hready
    split at hready
    · obtain ⟨grammar, toFinish, p', heq, hphase', hmemo⟩ := Phase.barrier hphase hp
      rw [hready, heq]
      refine ⟨hphase', fun p₀ hp₀ => ?_, hfresh, hno, fun hholds _ => hfree hholds⟩
      cases hp₀
      exact hmemo
    · rw [hready]
      refine ⟨hphase, fun p₀ hp₀ _ _ hadvanced => ?_, hfresh, hno, fun hholds _ => hfree hholds⟩
      cases hp₀
      cases hp.symm.trans hadvanced

theorem settled_first {r₂ : Req G} {cached₁ cached₂ : List Handed}
    (hoverlap : cfg.overlap = true) (hfirst : it.processFirst = true)
    (hordered : v.isInsert = true → it.action.commitsAhead cfg = false)
    (hold : ∀ p ∈ r₁.pending, p.grammarAdvanced = false) (hsound : ∀ h ∈ cached₁, h.Sound)
    (hsafe : ∀ p ∈ (r₁.ready cfg it).2, ∀ r₃ tokens,
      (r₁.ready cfg it).1.counted cfg p = some (r₃, tokens) → Insertable v 0 r₃ tokens)
    (hprocess : (r₁.ready cfg it).1.processBatchResult cfg v cached₁ (r₁.ready cfg it).2 =
      some (r₂, cached₂)) : Settled cfg (r₂.launch cfg it.action) ∧ ∀ h ∈ cached₂, h.Sound := by
  have hsync : ∀ q : List Pending, cfg.overlap = false → q = [] := fun _ hno =>
    nomatch hoverlap.symm.trans hno
  have hready : r₁.ready cfg it = ({ r₁ with pending := none }, r₁.pending) := by
    rw [Req.ready, if_pos hoverlap, if_pos hfirst]
  rw [hready] at hprocess hsafe
  have hout : (Planned cfg r₂ [] it.action ∨ (r₂.holdsKv = false ∧ r₂.finished = true)) ∧
      r₂.pending = none ∧ ∀ h ∈ cached₂, h.Sound := by
    cases hpend : r₁.pending with
    | none =>
      rw [hpend] at hprocess hplan
      cases hprocess
      exact ⟨.inl (hplan.keep none), rfl, hsound⟩
    | some p =>
      rw [hpend] at hprocess hplan hsafe
      have hmemo : Memo cfg { r₁ with pending := none } p := fun hadvanced =>
        absurd ((hold p hpend).symm.trans hadvanced) (by decide)
      exact (hplan.keep none).process hordered (Nat.zero_le _) (hsync _) hmemo (hsafe p rfl) hsound hprocess
  obtain ⟨hplan₂ | ⟨hholds, hfin⟩, hnone, hsound'⟩ := hout
  · exact ⟨⟨hplan₂.launch hnone (hsync _), launch_fresh hnone,
      fun hno => (nomatch hoverlap.symm.trans hno),
      fun hholds _ => hplan₂.launch_free hnone hholds⟩, hsound'⟩
  · -- it ended while it was scheduled, and is launched all the same
    have hkeep : (r₂.launch cfg it.action).holdsKv = false ∧ (r₂.launch cfg it.action).finished = true := by
      cases it.action <;> exact ⟨hholds, hfin⟩
    exact ⟨⟨.done hkeep.1 hkeep.2 (hsync _), launch_fresh hnone,
      fun hno => (nomatch hoverlap.symm.trans hno),
      fun _ hun => nomatch hkeep.2.symm.trans hun⟩, hsound'⟩

end Ready

end SparkInfer.Commit
