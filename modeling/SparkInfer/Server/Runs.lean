import SparkInfer.Server.Answers

/-!
# Runs of the server

Aborts follow their frames, shards forget what has ended, and every response ends once, in
every run whose steps are careful.  The abort lane is a queue of its own: without care an
abort overtakes the request it is about, and then neither the scheduler nor the shard
learns of it.
-/

namespace SparkInfer.Server

open Lib List World

variable {σ : Type} {cfg : Config σ}

namespace World

variable (cfg : Config σ) (w : World σ)

/-- The abort of a request whose guard was dropped comes after its frame, or is still to
be handled. -/
def AbortsFollow : Prop :=
  ∀ r c, w.clients r = some c → c.abandoned = true →
    ∀ xs frame ys, w.pushed = xs ++ frame :: ys → frame.rid = r → frame.isFrame = true →
      .abortReq r ∈ ys ∨ .guard r ∈ w.abortLane

def Drained : Prop :=
  w.inbox = [] ∧ w.abortLane = [] ∧ w.tokenizing = [] ∧ w.encoding = [] ∧ w.outputs = [] ∧
    ∀ s < cfg.numShards, (w.shards s).queue = []

def Awaited (r : Rid) : Prop :=
  ∃ frame ∈ w.pushed, frame.rid = r ∧ frame.isFrame = true ∧
    (frame ∈ w.ring ∨ r ∈ w.owed ∨ r ∈ w.skipped)

/-- A shard remembers only requests that are neither abandoned nor ended. -/
def NoStaleEntry : Prop :=
  ∀ s r, ((w.shards s).table r).isSome = true → ∃ c, w.clients r = some c ∧
    c.abandoned = false ∧ (∀ item ∈ c.sent, item.isTerminal = false) ∧ w.Awaited r

/-- The stages are drained and the scheduler has answered what it was asked. -/
def Settled : Prop := w.Drained cfg ∧ w.ring = [] ∧ w.owed = []

/-- Nothing follows a terminal item, and in the end every connected client has one; a probe
that the busy scheduler passed over is not waited for. -/
def EndsOnce : Prop :=
  ∀ r c, w.clients r = some c →
    (∀ xs item ys, c.sent = xs ++ item :: ys → item.isTerminal = true → ys = []) ∧
    (w.Settled cfg → c.closed = false → c.abandoned = false → r ∉ w.skipped →
      ∃ xs item, c.sent = xs ++ [item] ∧ item.isTerminal = true)

def NoOverflow : Act → Prop
  | .intakeEvent _ | .intakeAbort => w.hasRoom cfg = true
  | _ => True

instance (w : World σ) : DecidablePred (w.NoOverflow cfg)
  | .intakeEvent _ | .intakeAbort => inferInstanceAs (Decidable (_ = _))
  | .submit _ | .receive _ | .disarm _ | .dropGuard _ | .close _ | .tokenizerDone _ _
  | .mmDone _ _ | .shard _ | .dispatch | .readRing _ | .emitBatch _ _ | .emitResult _ _
  | .forget _ => .isTrue trivial

structure Sound (cfg : Config σ) (w : World σ) : Prop where
  routed : w.Routed cfg
  phase : ∀ r, Phase r (w.view cfg r)

end World

variable {w w' : World σ} {r : Rid} {c : Client}

theorem World.Sound.empty : (empty : World σ).Sound cfg where
  routed := {
    mail := fun _ _ h => nomatch h
    table := fun _ _ h => nomatch h
    parked := fun _ _ h => nomatch h }
  phase _ := .fresh ⟨⟨rfl, rfl, rfl, rfl⟩, ⟨rfl, rfl, rfl, rfl, rfl, rfl⟩, rfl, rfl, rfl, rfl⟩

theorem World.Sound.step (h : w.Sound cfg) {act : Act} (hok : w.Careful cfg act)
    (hstep : w.step cfg act = some w') : w'.Sound cfg :=
  have hstepped := step_stepped h.routed hok hstep
  ⟨hstepped.routed, fun r => (h.phase r).moves (hstepped.moves r)⟩

/-! ## Aborts -/

theorem no_frame {xs ys : List SchedulerRequest} {frame : SchedulerRequest}
    (hpushed : w.pushed = xs ++ frame :: ys) (hr : frame.rid = r) (hframe : frame.isFrame = true)
    (hall : ∀ msg ∈ (w.view cfg r).pushed, msg = .abortReq r) : False := by
  have hmem : frame ∈ (w.view cfg r).pushed := mem_filter.mpr ⟨by simp [hpushed], by simpa using hr⟩
  rw [hall frame hmem] at hframe
  cases hframe

theorem World.Sound.abortsFollow (h : w.Sound cfg) : w.AbortsFollow := by
  intro r c hc habandoned xs frame ys hpushed hr hframe
  have hnone : (w.view cfg r).pushed = [] → False := fun hempty =>
    @no_frame σ cfg w r xs ys frame hpushed hr hframe (by simp [hempty])
  cases h.phase r with
  | fresh hp | received hp | inside hp | parked hp | handed hp => exact absurd hp.pushed hnone
  | @pushed c' frame' rest hp =>
    obtain rfl : c' = c := Option.some.inj (hp.client.symm.trans hc)
    have hfilter : xs.filter (fun msg => msg.rid = r) ++ frame :: ys.filter (fun msg => msg.rid = r)
        = frame' :: rest := by
      rw [← hp.pushed]
      simp [view, hpushed, hr]
    rcases hp.abandoned habandoned with hguard | hrest
    · exact .inr (mem_filter.mp hguard).1
    refine .inl ?_
    rcases append_eq_cons_iff.mp hfilter with ⟨-, hcons⟩ | ⟨l, -, hrest'⟩
    · -- the frame is the first of its request, the aborts come after it
      obtain ⟨-, rfl⟩ := cons.inj hcons
      obtain ⟨msg, hmsg⟩ := exists_mem_of_ne_nil _ hrest
      rw [← hp.aborts msg hmsg]
      exact (mem_filter.mp hmsg).1
    · have habort := hp.aborts frame (by simp [hrest'])
      rw [habort] at hframe
      cases hframe
  | ended hp =>
    exact absurd hp.pushed (no_frame hpushed hr hframe)

/-! ## Entries -/

theorem World.Drained.view (h : w.Drained cfg) (r : Rid) :
    (w.view cfg r).events = [] ∧ (w.view cfg r).lane = [] ∧ (w.view cfg r).tokenizing = [] ∧
      (w.view cfg r).encoding = [] ∧ (w.view cfg r).mail = [] ∧ (w.view cfg r).letters = [] := by
  obtain ⟨hinbox, hlane, htokenizing, hencoding, houtputs, hqueues⟩ := h
  have hqueue := hqueues (cfg.shard r) (Nat.mod_lt _ cfg.numShards_pos)
  simp [World.view, hinbox, hlane, htokenizing, hencoding, houtputs, hqueue]

theorem World.Sound.noStaleEntry (h : w.Sound cfg) (hdrained : w.Drained cfg) : w.NoStaleEntry := by
  intro s r hentry
  obtain rfl := h.routed.table s r hentry
  obtain ⟨hevents, hlane, htokenizing, hencoding, hmail, hletters⟩ := hdrained.view r
  have hsome : (w.view cfg r).entry.isSome = true := hentry
  have hnot : ¬ (w.view cfg r).Shut := fun hshut => by simp [hshut.1] at hsome
  cases h.phase r with
  | fresh hp => exact absurd hsome (by simp [hp.entry])
  | received hp => exact absurd hp.events (by simp [hevents])
  | inside hp =>
    rcases hp.place with ⟨-, hone, -⟩ | ⟨hone, -⟩
    · exact absurd hone (by simp [htokenizing])
    · exact absurd hone (by simp [hevents])
  | parked hp =>
    rcases hp.place with ⟨-, hone⟩ | ⟨_, hone, -⟩
    · exact absurd hone (by simp [hencoding])
    · exact absurd hone (by simp [hevents])
  | @pushed c frame rest hp =>
    have hkept : c.abandoned = false := by
      by_contra habandoned
      rcases hp.abandoned (by simpa using habandoned) with hguard | hrest
      · simp [hlane] at hguard
      · rcases hp.shut hrest with hshut | hdereg
        · exact hnot hshut
        · simp [hmail] at hdereg
    have hsent : ∀ item ∈ c.sent, item.isTerminal = false := by
      intro item hitem
      by_contra hterminal
      exact hnot (hp.terminal ⟨item, hitem, by simpa using hterminal⟩)
    have hframe : frame ∈ w.pushed ∧ frame.rid = r := by
      have hmem : frame ∈ (w.view cfg r).pushed := by simp [hp.pushed]
      simpa [view] using hmem
    refine ⟨c, hp.client, hkept, hsent, frame, hframe.1, hframe.2, hp.isFrame, ?_⟩
    have howing := hp.owing (hp.known.resolve_right hnot)
    simp only [hmail, hletters] at howing
    refine howing.imp (fun hunread => (mem_filter.mp hunread).1) fun hrest => ?_
    simpa [view] using hrest
  | handed hp =>
    rcases hp.place with ⟨-, -, ids, hone | ⟨b, hone⟩⟩ | ⟨-, hnone, -⟩
    · exact absurd hone (by simp [hmail])
    · exact absurd hone (by simp [hmail])
    · exact absurd hsome (by simp [hnone])
  | ended hp =>
    have hdereg := hp.closing (hp.known.resolve_right hnot)
    simp [hmail] at hdereg

/-! ## Responses -/

theorem World.Sound.endsOnce (h : w.Sound cfg) : w.EndsOnce cfg := by
  intro r c hc
  have hsame : ∀ {c' : Client}, (w.view cfg r).client = some c' → c' = c :=
    fun hc' => Option.some.inj (hc'.symm.trans hc)
  have hempty : c.sent = [] → ∀ xs item ys, c.sent = xs ++ item :: ys → item.isTerminal = true →
      ys = [] := fun hsent xs item ys heq => by simp [hsent] at heq
  have hone : ∀ item₀, c.sent = [item₀] → ∀ xs item ys, c.sent = xs ++ item :: ys →
      item.isTerminal = true → ys = [] := by
    intro item₀ hsent xs item ys heq _
    rw [hsent] at heq
    rcases append_eq_singleton_iff.mp heq.symm with ⟨-, htail⟩ | ⟨-, htail⟩
    · exact (cons.inj htail).2
    · cases htail
  cases h.phase r with
  | fresh hp => exact absurd hp.client (by simp [view, hc])
  | received hp =>
    obtain rfl := hsame hp.client
    refine ⟨hempty hp.sent, fun hsettled => ?_⟩
    exact absurd hp.events (by simp [(hsettled.1.view r).1])
  | inside hp =>
    obtain rfl := hsame hp.client
    refine ⟨hempty hp.sent, fun hsettled => ?_⟩
    obtain ⟨hevents, -, htokenizing, -⟩ := hsettled.1.view r
    rcases hp.place with ⟨-, hplace, -⟩ | ⟨hplace, -⟩
    · exact absurd hplace (by simp [htokenizing])
    · exact absurd hplace (by simp [hevents])
  | parked hp =>
    obtain rfl := hsame hp.client
    refine ⟨hempty hp.sent, fun hsettled => ?_⟩
    obtain ⟨hevents, -, -, hencoding, -⟩ := hsettled.1.view r
    rcases hp.place with ⟨-, hplace⟩ | ⟨_, hplace, -⟩
    · exact absurd hplace (by simp [hencoding])
    · exact absurd hplace (by simp [hevents])
  | @pushed c' _ _ hp =>
    obtain rfl : c' = c := hsame hp.client
    refine ⟨hp.last, fun hsettled hclosed hkept hskipped => ?_⟩
    obtain ⟨hdrained, hring, howed⟩ := hsettled
    obtain ⟨-, -, -, -, hmail, hletters⟩ := hdrained.view r
    have hterminal : ∃ item ∈ c'.sent, item.isTerminal = true := by
      by_contra hnone
      push Not at hnone
      obtain ⟨hopen, -⟩ := hp.connected hclosed hkept fun item hitem => by simpa using hnone item hitem
      have howing := hp.owing hopen
      simp only [hmail, hletters, append_nil, not_mem_nil, false_and, exists_false,
        or_false] at howing
      simp [view, hring, howed, hskipped] at howing
    obtain ⟨item, hitem, ht⟩ := hterminal
    obtain ⟨xs, ys, hsplit⟩ := append_of_mem hitem
    obtain rfl := hp.last xs item ys hsplit ht
    exact ⟨xs, item, hsplit, ht⟩
  | handed hp =>
    obtain rfl := hsame hp.client
    rcases hp.place with ⟨hsent, -, ids, hplace⟩ | ⟨-, -, ⟨item, hsent, ht⟩ | ⟨hsent, hclosed⟩⟩
    · refine ⟨hempty hsent, fun hsettled => ?_⟩
      obtain ⟨-, -, -, -, hmail, -⟩ := hsettled.1.view r
      exact absurd hplace (by simp [hmail])
    · exact ⟨hone item hsent, fun _ _ _ _ => ⟨[], item, hsent, ht⟩⟩
    · exact ⟨hempty hsent, fun _ hopen => absurd hclosed (by simp [hopen])⟩
  | ended hp =>
    obtain rfl := hsame hp.client
    refine ⟨?_, fun _ hclosed hkept _ => ?_⟩
    · rcases hp.sent with hsent | ⟨e, hsent⟩
      · exact hempty hsent
      · exact hone _ hsent
    · obtain ⟨e, hsent⟩ := hp.connected hclosed hkept
      exact ⟨[], _, hsent, rfl⟩

/-- In every state that careful steps lead to, the abort of a dropped guard comes after the
frame, drained shards remember nothing stale, and every response ends once. -/
theorem requests_end_once {acts : List Act}
    (hcareful : Guarded (step cfg) (World.Careful cfg) .empty acts)
    (hrun : runFrom (step cfg) .empty acts = some w) :
    w.AbortsFollow ∧ (w.Drained cfg → w.NoStaleEntry) ∧ w.EndsOnce cfg := by
  have hsound : w.Sound cfg :=
    runFrom_invariant (fun _ _ _ h hok hstep => h.step hok hstep) World.Sound.empty hcareful hrun
  exact ⟨hsound.abortsFollow, hsound.noStaleEntry, hsound.endsOnce⟩

/-- In careful runs the server is, for every request, a run of the moves of that request alone,
and the scheduler is sent its frame at most once, before all aborts of it. -/
theorem requests_run_alone {acts : List Act}
    (hcareful : Guarded (step cfg) (World.Careful cfg) .empty acts)
    (hrun : runFrom (step cfg) .empty acts = some w) (r : Rid) :
    Moves cfg r (view cfg .empty r) (w.view cfg r) ∧
      ∃ frames aborts, w.pushed.filter (·.rid = r) = frames ++ aborts ∧ frames.length ≤ 1 ∧
        (∀ msg ∈ frames, msg.isFrame = true) ∧ ∀ msg ∈ aborts, msg = .abortReq r := by
  have hboth : w.Sound cfg ∧ Moves cfg r (view cfg .empty r) (w.view cfg r) :=
    runFrom_invariant (I := fun w => w.Sound cfg ∧ Moves cfg r (view cfg .empty r) (w.view cfg r))
      (fun _ _ _ h hok hstep => ⟨h.1.step hok hstep,
        h.2.trans ((step_stepped h.1.routed hok hstep).moves r)⟩) ⟨.empty, .refl⟩ hcareful hrun
  refine ⟨hboth.2, ?_⟩
  cases hboth.1.phase r with
  | fresh hp | received hp | inside hp | parked hp | handed hp =>
    exact ⟨[], [], hp.pushed, by simp, by simp, by simp⟩
  | @pushed c frame rest hp => exact ⟨[frame], rest, hp.pushed, le_rfl, by simp [hp.isFrame], hp.aborts⟩
  | ended hp => exact ⟨[], _, rfl, by simp, by simp, hp.pushed⟩

/-! ## One shard, one slot per channel -/

/-- A server with one shard, a ring of eight and channels of one item. -/
def small : Config Unit where
  limits := ⟨false, 100, 100, 0, false, false⟩
  mmEnabled := false
  normalize := .ok
  encodeHeader _ := .ok ()
  ringCap := 8
  responseBuf := 1
  responseBuf_pos := Nat.one_pos
  numShards := 1
  numShards_pos := Nat.one_pos
  hash := id
  backend := ⟨some (), fun _ _ => .ok ([], ()), fun _ => .ok []⟩

/-- A tokenized request; `probe` marks a health check. -/
def ask (probe : Bool) : Request :=
  ⟨0, 1, .received, .generate ⟨some [7], false, none, false, ⟨none, 0, true⟩, probe⟩⟩

def chunk (finish : Option FinishReason) : ChunkEvent := { rid := 0, tokenIds := [7], finishReason := finish }

/-- The client leaves while the scheduler has its request; the shard is told in time. -/
def leaves : List Act :=
  [.submit (ask false), .intakeEvent false, .shard 0, .readRing .takes,
    .emitBatch [chunk none] .good, .dispatch, .shard 0, .dropGuard 0, .intakeAbort, .shard 0,
    .readRing .takes, .forget 0]

theorem requests_end_once_leaves :
    ∃ w, runFrom (step small) .empty leaves = some w ∧ w.Drained small ∧ w.AbortsFollow ∧
      w.NoStaleEntry ∧ w.EndsOnce small := by
  refine ⟨_, rfl, ⟨rfl, rfl, rfl, rfl, rfl, by decide⟩, ?_⟩
  have hall := requests_end_once (show Guarded (step small) (World.Careful small) .empty leaves
    by decide) rfl
  exact ⟨hall.1, hall.2.1 ⟨rfl, rfl, rfl, rfl, rfl, by decide⟩, hall.2.2⟩

theorem requests_run_alone_leaves :
    ∃ w, runFrom (step small) .empty leaves = some w ∧ Moves small 0 (view small .empty 0) (w.view small 0) :=
  ⟨_, rfl, (requests_run_alone (show Guarded (step small) (World.Careful small) .empty leaves
    by decide) rfl 0).1⟩

/-- The guard is dropped before the intake has seen the request. -/
def overtakes (probe : Bool) : List Act :=
  [.submit (ask probe), .dropGuard 0, .intakeAbort, .shard 0, .intakeEvent false, .shard 0]

/-- The client has not read the first chunk when the last one comes. -/
def outruns : List Act :=
  [.submit (ask false), .intakeEvent false, .shard 0, .readRing .takes,
    .emitBatch [chunk none] .good, .dispatch, .shard 0, .emitBatch [chunk (some ⟨none⟩)] .good,
    .dispatch, .shard 0, .receive 0]

/-- The ring never overflows, and still an abort precedes its frame, the entry of an
abandoned probe stays for good, and a connected client gets no terminal item. -/
theorem abort_overtakes_and_sinks_drop :
    (∃ acts w, Guarded (step small) (World.NoOverflow small) .empty acts ∧
      runFrom (step small) .empty acts = some w ∧ w.Drained small ∧ ¬ w.AbortsFollow) ∧
    (∃ acts w, Guarded (step small) (World.NoOverflow small) .empty acts ∧
      runFrom (step small) .empty acts = some w ∧ w.Settled small ∧ ¬ w.NoStaleEntry) ∧
    ∃ acts w, Guarded (step small) (World.NoOverflow small) .empty acts ∧
      runFrom (step small) .empty acts = some w ∧ w.Settled small ∧ ¬ w.EndsOnce small := by
  refine ⟨⟨overtakes false, _, by decide, rfl, ⟨rfl, rfl, rfl, rfl, rfl, by decide⟩, fun h => ?_⟩,
    ⟨overtakes true ++ [.readRing .takes, .readRing .passesOver], _, by decide, rfl,
      ⟨⟨rfl, rfl, rfl, rfl, rfl, by decide⟩, rfl, rfl⟩, fun h => ?_⟩,
    outruns, _, by decide, rfl, ⟨⟨rfl, rfl, rfl, rfl, rfl, by decide⟩, rfl, rfl⟩, fun h => ?_⟩
  · rcases h 0 _ rfl rfl [.abortReq 0] _ [] rfl rfl rfl with hlater | hlane
    · exact not_mem_nil hlater
    · exact not_mem_nil hlane
  · obtain ⟨c, hc, hkept, -⟩ := h 0 0 rfl
    cases hc
    cases hkept
  obtain ⟨xs, item, hsent, hterminal⟩ := (h 0 _ rfl).2
    ⟨⟨rfl, rfl, rfl, rfl, rfl, by decide⟩, rfl, rfl⟩ rfl rfl not_mem_nil
  rcases append_eq_singleton_iff.mp hsent.symm with ⟨rfl, hitem⟩ | ⟨-, hitem⟩
  · cases hitem
    cases hterminal
  · cases hitem

end SparkInfer.Server
