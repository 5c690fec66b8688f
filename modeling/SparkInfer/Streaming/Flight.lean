import SparkInfer.Lib.Run
import Mathlib.Logic.Function.Basic
import Mathlib.Data.Nat.Notation

/-!
# The requests of a streaming session

A streaming session (`session_controller.py`) takes one request at a time: `create_req`
sets a flag, and the places where a request ends (`streaming_session.py`) clear it.  The
model keeps the flag, the slot of the session and where each of its requests is, and goes
through everything that can happen to a request between `create_req` and its end.

`none` stands for a failed assertion, or an event that cannot happen.
-/

namespace SparkInfer.Streaming

open Option Bool

inductive Stage
  /-- Waits for its grammar. -/
  | grammar
  | waiting
  | running
  | ended
deriving DecidableEq, Repr

structure Turn where
  stage : Stage
  /-- `create_req` did not reject it. -/
  accepted : Bool
  attached : Bool
  toFinish : Bool
  finished : Bool
  /-- `req.kv` is the record of the slot. -/
  restored : Bool
deriving DecidableEq, Repr

structure Session where
  reqs : ℕ → Option Turn
  inflight : Bool
  closeOnFinish : Bool
  closed : Bool
  reqNode : Option ℕ
  /-- There is a slot, and it holds a row. -/
  slot : Bool

namespace Session

def new : Session where
  reqs := fun _ => none
  inflight := false
  closeOnFinish := false
  closed := false
  reqNode := none
  slot := false

variable (s : Session) (rid : ℕ)

def setReq (t : Turn) : Session :=
  { s with reqs := Function.update s.reqs rid (some t) }

/-- `plain`: neither replace, drop_previous_output nor offset.  `invalid`: a later check of
the scheduler aborts the request. -/
def createReq (plain invalid toGrammar : Bool) : Option Session :=
  if (s.reqs rid).isSome then none
  else
    let stage := if toGrammar then Stage.grammar else .waiting
    if s.closed || s.closeOnFinish then
      -- the request is not one of the session
      some (s.setReq rid ⟨stage, false, false, true, false, false⟩)
    else if s.inflight || !plain then some (s.setReq rid ⟨stage, false, true, true, false, false⟩)
    else some ({ s with inflight := true }.setReq rid ⟨stage, true, true, invalid, false, false⟩)

def abortReq : Session := { s with inflight := false }

def detach : Option ℕ → Session
  | none => s
  | some rid =>
    match s.reqs rid with
    | none => s
    | some t => s.setReq rid { t with attached := false }

def finishReq : Session :=
  { { s with inflight := false }.detach s.reqNode with reqNode := some rid }

/-- `release_kv_cache` of a streaming request, with a finish reason that is an abort or
not. -/
def releaseKvCache (t : Turn) (aborted : Bool) : Option Session :=
  if t.attached then
    -- the record of the request has to be the one of the slot
    if s.slot = t.restored then
      if aborted then some { s with slot := false }.abortReq
      else some ({ s with slot := true }.finishReq rid)
    else none
  else some s

/-- `find_active_slot` and the match, then the admission if there is room. -/
def schedule (t : Turn) (admitted : Bool) : Session :=
  let stage := if admitted then Stage.running else t.stage
  if t.attached && s.slot then
    if t.toFinish then s.abortReq.setReq rid { t with stage := stage, attached := false }
    else s.setReq rid { t with stage := stage, restored := true }
  else s.setReq rid { t with stage := stage }

def hasUnfinishedRequest : Bool :=
  s.inflight || (s.reqNode.bind s.reqs).any (fun t => !t.finished)

def close : Session :=
  if s.closed then s
  else if s.hasUnfinishedRequest then { s with closeOnFinish := true }
  else { s.detach s.reqNode with slot := false, closed := true }

def allRequestsFinished : Bool := (s.reqNode.bind s.reqs).all (·.finished)

def maybeReap (timedOut : Bool) : Session :=
  let s := if s.closeOnFinish && s.allRequestsFinished then { s with closeOnFinish := false }.close else s
  if timedOut then s.close else s

end Session

inductive Event
  | create (rid : ℕ) (plain invalid toGrammar : Bool)
  /-- The grammar is ready, or it failed or its request was aborted. -/
  | grammarDone (rid : ℕ) (ok : Bool)
  | schedule (rid : ℕ) (admitted : Bool)
  /-- Abort of a running request, or its time is over. -/
  | abortRunning (rid : ℕ)
  /-- The result that ends the request is processed; `aborted`: by an error of its own. -/
  | finish (rid : ℕ) (aborted : Bool)
  /-- Abort of a chunked request. -/
  | abortChunked (rid : ℕ)
  /-- Abort of a request in the waiting queue, or its time is over, or the queue is full.
  `mamba`: its record holds a mamba state. -/
  | drop (rid : ℕ) (mamba : Bool)
  | retract (rid : ℕ)
  /-- Retraction of a request that cannot be resumed. -/
  | retractAbort (rid : ℕ)
  | close
  | reap (timedOut : Bool)

def Session.at (s : Session) (rid : ℕ) (stage : Stage) : Option Turn :=
  (s.reqs rid).filter (·.stage = stage)

def Session.step (s : Session) : Event → Option Session
  | .create rid plain invalid toGrammar => s.createReq rid plain invalid toGrammar
  | .grammarDone rid ok => (s.at rid .grammar).map fun t =>
    s.setReq rid { t with stage := .waiting, toFinish := t.toFinish || !ok }
  | .schedule rid admitted => (s.at rid .waiting).map fun t => s.schedule rid t admitted
  | .abortRunning rid => (s.at rid .running).map fun t => s.setReq rid { t with toFinish := true }
  | .finish rid aborted => (s.at rid .running).bind fun t =>
    (s.setReq rid { t with stage := .ended, toFinish := false, finished := true }).releaseKvCache rid t
      (t.toFinish || aborted)
  | .abortChunked rid => (s.at rid .running).bind fun t =>
    (s.setReq rid { t with stage := .ended, toFinish := false, finished := true }).releaseKvCache rid t true
  | .drop rid mamba => (s.at rid .waiting).bind fun t =>
    let s := s.setReq rid { t with stage := .ended }
    if mamba && t.restored then s.releaseKvCache rid t false else some s
  | .retract rid => (s.at rid .running).bind fun t =>
    (s.setReq rid { t with stage := .waiting, restored := false }).releaseKvCache rid t false
  | .retractAbort rid => (s.at rid .running).bind fun t =>
    (s.setReq rid { t with stage := .ended, toFinish := true, restored := false }).releaseKvCache rid t false
  | .close => some s.close
  | .reap timedOut => some (s.maybeReap timedOut)

def Session.run (events : List Event) : Option Session := Lib.runFrom step .new events

/-! ## One request at a time -/

def Turn.live (t : Turn) : Bool := t.accepted && t.attached && t.stage ≠ .ended

def Turn.usesSlot (t : Turn) : Bool := t.restored && t.stage ≠ .ended

/-- A request that was rejected and still has the session. -/
def Turn.rejected (t : Turn) : Bool := t.attached && !t.accepted

namespace Session

def Live (s : Session) (rid : ℕ) : Prop := ∃ t, s.reqs rid = some t ∧ t.live = true

/-- No request of the session leaves the waiting queue without being scheduled, none is
retracted, and a rejected one is taken up only while no accepted one is live. -/
def SafeStep (s : Session) : Event → Prop
  | .schedule rid _ | .finish rid _ | .abortChunked rid =>
    ∀ t, s.reqs rid = some t → t.rejected = true → ∀ other, ¬s.Live other
  | .drop rid _ => ∀ t, s.reqs rid = some t → t.live = false
  | .retract rid | .retractAbort rid => ∀ t, s.reqs rid = some t → t.attached = false
  | _ => True

structure TurnOk (t : Turn) : Prop where
  rejected : t.rejected = true → t.stage ≠ .ended → t.toFinish = true ∧ t.restored = false
  restored : t.usesSlot = true → t.live = true
  queued : t.stage = .grammar ∨ t.stage = .waiting → t.toFinish = true → t.restored = false
  unread : t.stage = .grammar → t.restored = false

structure Inv (s : Session) : Prop where
  turns : ∀ rid t, s.reqs rid = some t → TurnOk t
  /-- The flag is set for one request. -/
  flag : s.inflight = true ↔ ∃ rid, s.Live rid
  unique : ∀ rid rid', s.Live rid → s.Live rid' → rid = rid'
  node : ∀ rid, s.reqNode = some rid → ∃ t, s.reqs rid = some t ∧ t.stage = .ended ∧ t.finished = true

variable {s s' : Session} {rid rid' : ℕ} {t t' : Turn}

@[simp] theorem setReq_self : (s.setReq rid t).reqs rid = some t := Function.update_self ..

@[simp] theorem setReq_of_ne (h : rid' ≠ rid) : (s.setReq rid t).reqs rid' = s.reqs rid' :=
  Function.update_of_ne h ..

theorem live_iff (h : s.reqs rid = some t) : s.Live rid ↔ t.live = true := by
  refine ⟨fun ⟨t', ht', hlive⟩ => ?_, fun hlive => ⟨t, h, hlive⟩⟩
  rwa [some.inj (h.symm.trans ht')]

theorem live_setReq_self : (s.setReq rid t).Live rid ↔ t.live = true := live_iff setReq_self

theorem Inv.put (h : s.Inv) (hok : TurnOk t) (hnode : s.reqNode = some rid → t.stage = .ended ∧ t.finished = true)
    {b : Bool} (hflag : b = true ↔ t.live = true ∨ ∃ other, other ≠ rid ∧ s.Live other)
    (hone : t.live = true → ∀ other, other ≠ rid → ¬s.Live other) :
    ({ s with inflight := b }.setReq rid t).Inv := by
  have hlive : ∀ other, ({ s with inflight := b }.setReq rid t).Live other ↔
      (other = rid ∧ t.live = true) ∨ (other ≠ rid ∧ s.Live other) := by
    intro other
    by_cases hne : other = rid
    · rw [hne, live_setReq_self]
      simp
    · simp [Live, hne]
  refine ⟨fun other u hu => ?_, ?_, fun a b ha hb => ?_, fun node hn => ?_⟩
  · by_cases hne : other = rid
    · rw [hne, setReq_self] at hu
      rwa [← some.inj hu]
    · rw [setReq_of_ne hne] at hu
      exact h.turns other u hu
  · change b = true ↔ _
    simp only [hflag, hlive]
    refine ⟨fun hl => hl.elim (fun hl => ⟨rid, .inl ⟨rfl, hl⟩⟩) fun ⟨other, hl⟩ => ⟨other, .inr hl⟩, ?_⟩
    rintro ⟨other, ⟨-, hl⟩ | hl⟩
    · exact .inl hl
    · exact .inr ⟨other, hl⟩
  · rcases (hlive a).mp ha with ⟨rfl, ht⟩ | ⟨hna, hla⟩ <;> rcases (hlive b).mp hb with ⟨hb', ht'⟩ | ⟨hnb, hlb⟩
    · exact hb'.symm
    · exact absurd hlb (hone ht b hnb)
    · exact absurd hla (hone ht' a hna)
    · exact h.unique a b hla hlb
  · by_cases hne : node = rid
    · rw [hne] at hn ⊢
      exact ⟨t, setReq_self, hnode hn⟩
    · obtain ⟨u, hu, hdone⟩ := h.node node hn
      exact ⟨u, by rw [setReq_of_ne hne]; exact hu, hdone⟩

theorem Inv.setReq (h : s.Inv) (hold : s.reqs rid = some t) (hok : TurnOk t') (hlive : t'.live = t.live)
    (hended : t.stage = .ended → t'.stage = .ended ∧ t'.finished = t.finished) : (s.setReq rid t').Inv := by
  refine h.put hok (fun hnode => ?_) ?_ fun hl other hne hother => hne ?_
  · obtain ⟨u, hu, hstage, hfin⟩ := h.node rid hnode
    obtain rfl : u = t := some.inj (hu.symm.trans hold)
    exact ⟨(hended hstage).1, (hended hstage).2.trans hfin⟩
  · rw [h.flag, hlive, ← live_iff hold]
    refine ⟨fun ⟨other, hl⟩ => ?_, fun hl => hl.elim (fun hl => ⟨rid, hl⟩) fun ⟨other, _, hl⟩ => ⟨other, hl⟩⟩
    by_cases hne : other = rid
    · exact .inl (hne ▸ hl)
    · exact .inr ⟨other, hne, hl⟩
  · exact h.unique other rid hother ((live_iff hold).mpr (hlive ▸ hl))

theorem turnOk_ended (h : t.stage = .ended) : TurnOk t :=
  ⟨fun _ hne => absurd h hne, fun huses => by simp [Turn.usesSlot, h] at huses,
    fun hstage => by simp [h] at hstage, fun hstage => by simp [h] at hstage⟩

section

variable (h : s.Inv)
include h

theorem Inv.node_ne (hold : s.reqs rid = some t) (hstage : t.stage ≠ .ended) :
    s.reqNode ≠ some rid := by
  intro hnode
  obtain ⟨u, hu, hended, -⟩ := h.node rid hnode
  rw [hold] at hu
  exact hstage (some.inj hu ▸ hended)

/-- A live request ends or leaves the session, and the flag is cleared. -/
theorem Inv.settle (hold : s.reqs rid = some t) (hstage : t.stage ≠ .ended) (hok : TurnOk t')
    (hdead : t'.live = false) (hothers : ∀ other, other ≠ rid → ¬s.Live other) :
    ({ s with inflight := false }.setReq rid t').Inv := by
  refine h.put hok (fun hnode => absurd hnode (h.node_ne hold hstage)) ?_ fun _ => hothers
  refine ⟨(fun hset => nomatch hset), ?_⟩
  rintro (hl | ⟨other, hne, hl⟩)
  · cases hdead.symm.trans hl
  · exact absurd hl (hothers other hne)

theorem Inv.detach : (s.detach s.reqNode).Inv := by
  unfold Session.detach
  cases hnode : s.reqNode with
  | none => exact h
  | some rid =>
    obtain ⟨t, ht, hended, -⟩ := h.node rid hnode
    simp only [ht]
    exact h.setReq ht (turnOk_ended hended) (by simp [Turn.live, hended]) fun _ => ⟨hended, rfl⟩

omit h in
theorem detach_reqs_of_ne {node : Option ℕ} (hne : node ≠ some rid) : (s.detach node).reqs rid = s.reqs rid := by
  unfold detach
  split
  · rfl
  split
  · rfl
  · exact setReq_of_ne fun heq => hne (by rw [heq])

/-- Where a request ends, it is the only live one, or no one is. -/
theorem Inv.others (hold : s.reqs rid = some t) (hstage : t.stage ≠ .ended)
    (hattached : t.attached = true) (hrejected : t.rejected = true → ∀ other, ¬s.Live other) :
    ∀ other, other ≠ rid → ¬s.Live other := by
  intro other hne hlive
  cases haccepted : t.accepted with
  | true =>
    refine hne (h.unique other rid hlive ((live_iff hold).mpr ?_))
    simp [Turn.live, haccepted, hattached, hstage]
  | false => exact hrejected (by simp [Turn.rejected, haccepted, hattached]) other hlive

/-! ## Steps -/

theorem Inv.createReq {plain invalid toGrammar : Bool}
    (hstep : s.createReq rid plain invalid toGrammar = some s') : s'.Inv := by
  unfold Session.createReq at hstep
  split at hstep
  · cases hstep
  rename_i hfresh
  have hnew : s.reqs rid = none := not_isSome_iff_eq_none.mp hfresh
  have hdead : ¬s.Live rid := fun ⟨t, ht, _⟩ => by simp [hnew] at ht
  have hnode : s.reqNode ≠ some rid := fun hnode => by
    obtain ⟨u, hu, -⟩ := h.node rid hnode
    simp [hnew] at hu
  have hothers : (∃ other, s.Live other) ↔ ∃ other, other ≠ rid ∧ s.Live other :=
    ⟨fun ⟨other, hl⟩ => ⟨other, fun heq => hdead (heq ▸ hl), hl⟩, fun ⟨other, _, hl⟩ => ⟨other, hl⟩⟩
  have hkeep : ∀ t : Turn, TurnOk t → t.live = false → (s.setReq rid t).Inv := fun t hok hno =>
    h.put hok (fun hn => absurd hn hnode) (by rw [h.flag, hno, hothers]; simp)
      fun hl => absurd hl (by rw [hno]; exact false_ne_true)
  have hstage : (if toGrammar then Stage.grammar else .waiting) ≠ .ended := by
    cases toGrammar <;> decide
  dsimp only at hstep
  split at hstep
  · cases hstep
    exact hkeep _ ⟨fun hr => by simp [Turn.rejected] at hr, fun hu => by simp [Turn.usesSlot] at hu,
      fun _ _ => rfl, fun _ => rfl⟩ (by simp [Turn.live])
  split at hstep
  · cases hstep
    exact hkeep _ ⟨fun _ _ => ⟨rfl, rfl⟩, fun hu => by simp [Turn.usesSlot] at hu, fun _ _ => rfl,
      fun _ => rfl⟩ (by simp [Turn.live])
  have hclear : s.inflight = false := by
    cases hf : s.inflight <;> simp_all
  have hnone : ∀ other, ¬s.Live other := fun other hl => by
    have := h.flag.mpr ⟨other, hl⟩
    cases hclear.symm.trans this
  cases hstep
  exact h.put ⟨fun hr => by simp [Turn.rejected] at hr, fun hu => by simp [Turn.usesSlot] at hu,
    fun _ _ => rfl, fun _ => rfl⟩ (fun hn => absurd hn hnode) (by simp [Turn.live, hstage])
    fun _ other _ => hnone other

theorem Inv.release {aborted : Bool} (hold : s.reqs rid = some t) (hstage : t.stage ≠ .ended)
    (hended : t'.stage = .ended) (hfin : t'.finished = true)
    (hrejected : t.rejected = true → ∀ other, ¬s.Live other)
    (hstep : (s.setReq rid t').releaseKvCache rid t aborted = some s') : s'.Inv := by
  have hdead : t'.live = false := by simp [Turn.live, hended]
  unfold releaseKvCache at hstep
  split at hstep
  · rename_i hattached
    have hsettled := h.settle hold hstage (turnOk_ended hended) hdead (h.others hold hstage hattached hrejected)
    split at hstep
    · split at hstep
      · cases hstep
        exact { hsettled with }
      cases hstep
      have hinv : ({ ({ s with inflight := false }.setReq rid t') with slot := true } : Session).Inv :=
        { hsettled with }
      have hgone := hinv.detach
      refine { hgone with node := fun node hnode => ?_ }
      cases hnode
      refine ⟨t', ?_, hended, hfin⟩
      exact (detach_reqs_of_ne (h.node_ne hold hstage)).trans setReq_self
    · cases hstep
  · rename_i hdetached
    cases hstep
    exact h.setReq hold (turnOk_ended hended) (by rw [hdead]; simp [Turn.live, hdetached])
      fun hno => absurd hno hstage

theorem Inv.schedule {admitted : Bool} (hold : s.reqs rid = some t) (hwaiting : t.stage = .waiting)
    (hrejected : t.rejected = true → ∀ other, ¬s.Live other) : (s.schedule rid t admitted).Inv := by
  have hok := h.turns rid t hold
  have hstage : t.stage ≠ .ended := by rw [hwaiting]; decide
  have hnext : (if admitted then Stage.running else t.stage) ≠ .ended := by
    split
    · decide
    · exact hstage
  have hgrammar : (if admitted then Stage.running else t.stage) ≠ .grammar := by
    split
    · decide
    · exact hwaiting ▸ (by decide)
  unfold Session.schedule
  dsimp only
  split
  · rename_i hslot
    obtain ⟨hattached, -⟩ := and_eq_true_iff.mp hslot
    split
    · rename_i hto
      have hfree : t.restored = false := hok.queued (.inr hwaiting) hto
      refine h.settle hold hstage ⟨fun hr => ?_, fun hu => ?_, fun _ _ => hfree, fun _ => hfree⟩ ?_
        (h.others hold hstage hattached hrejected)
      · simp [Turn.rejected] at hr
      · simp [Turn.usesSlot, hfree] at hu
      · simp [Turn.live]
    · rename_i hto
      have haccepted : t.accepted = true := by
        by_contra hno
        exact hto (hok.rejected (by simp [Turn.rejected, hattached, hno]) hstage).1
      refine h.setReq hold ⟨fun hr => ?_, fun _ => ?_, fun _ hto' => absurd hto' hto,
        fun hg => absurd hg hgrammar⟩ ?_ fun hno => absurd hno hstage
      · simp [Turn.rejected, haccepted] at hr
      · simp [Turn.live, haccepted, hattached, hnext]
      · simp [Turn.live, hnext, hstage]
  · refine h.setReq hold ⟨fun hr _ => hok.rejected hr hstage, fun hu => ?_, fun hq hto => ?_,
      fun hg => absurd hg hgrammar⟩ ?_ fun hno => absurd hno hstage
    · have huses : t.usesSlot = true := by
        simp only [Turn.usesSlot, and_eq_true] at hu
        simp [Turn.usesSlot, hu.1, hstage]
      have hlive := hok.restored huses
      simp only [Turn.live, and_eq_true] at hlive ⊢
      exact ⟨hlive.1, by simp [hnext]⟩
    · exact hok.queued (.inr hwaiting) hto
    · simp [Turn.live, hnext, hstage]

theorem Inv.close : s.close.Inv := by
  unfold Session.close
  split
  · exact h
  · split
    · exact { h with }
    · exact { h.detach with }

theorem Inv.maybeReap (timedOut : Bool) : (s.maybeReap timedOut).Inv := by
  have hfirst : (if s.closeOnFinish && s.allRequestsFinished then { s with closeOnFinish := false }.close
      else s).Inv := by
    split
    · exact Inv.close { h with }
    · exact h
  unfold Session.maybeReap
  dsimp only
  split
  · exact hfirst.close
  · exact hfirst

end

theorem at_eq {stage : Stage} (h : s.at rid stage = some t) : s.reqs rid = some t ∧ t.stage = stage := by
  obtain ⟨hold, hstage⟩ := filter_eq_some_iff.mp h
  exact ⟨hold, of_decide_eq_true hstage⟩

theorem Inv.step {e : Event} (h : s.Inv) (hsafe : s.SafeStep e) (hstep : s.step e = some s') : s'.Inv := by
  cases e with
  | create rid plain invalid toGrammar => exact h.createReq hstep
  | grammarDone rid ok =>
    obtain ⟨t, hat, rfl⟩ := map_eq_some_iff.mp hstep
    obtain ⟨hold, hstage⟩ := at_eq hat
    have hok := h.turns rid t hold
    have hfree := hok.unread hstage
    refine h.setReq hold ⟨fun hr _ => ⟨?_, hfree⟩, fun hu => ?_, fun _ _ => hfree, fun _ => hfree⟩ ?_
      fun hno => nomatch hstage.symm.trans hno
    · simp [(hok.rejected hr (by rw [hstage]; decide)).1]
    · simp [Turn.usesSlot, hfree] at hu
    · simp [Turn.live, hstage]
  | schedule rid admitted =>
    obtain ⟨t, hat, rfl⟩ := map_eq_some_iff.mp hstep
    obtain ⟨hold, hstage⟩ := at_eq hat
    exact h.schedule hold hstage (hsafe t hold)
  | abortRunning rid =>
    obtain ⟨t, hat, rfl⟩ := map_eq_some_iff.mp hstep
    obtain ⟨hold, hstage⟩ := at_eq hat
    have hok := h.turns rid t hold
    have hrunning : t.stage ≠ .ended := by rw [hstage]; decide
    refine h.setReq hold ⟨fun hr _ => ⟨rfl, (hok.rejected hr hrunning).2⟩, hok.restored,
      fun hq => ?_, hok.unread⟩ rfl fun hno => absurd hno hrunning
    simp [hstage] at hq
  | finish rid aborted | abortChunked rid =>
    obtain ⟨t, hat, hrelease⟩ := bind_eq_some_iff.mp hstep
    obtain ⟨hold, hstage⟩ := at_eq hat
    exact h.release hold (by rw [hstage]; decide) rfl rfl (hsafe t hold) hrelease
  | drop rid mamba =>
    obtain ⟨t, hat, hrelease⟩ := bind_eq_some_iff.mp hstep
    obtain ⟨hold, hstage⟩ := at_eq hat
    have hdead := hsafe t hold
    have hfree : t.restored = false := by
      by_contra hno
      have := (h.turns rid t hold).restored (by simp [Turn.usesSlot, hno, hstage])
      cases hdead.symm.trans this
    rw [hfree, Bool.and_false] at hrelease
    cases hrelease
    exact h.setReq hold (turnOk_ended rfl) (by rw [hdead]; simp [Turn.live])
      fun hno => nomatch hstage.symm.trans hno
  | retract rid =>
    obtain ⟨t, hat, hrelease⟩ := bind_eq_some_iff.mp hstep
    obtain ⟨hold, hstage⟩ := at_eq hat
    have hdetached := hsafe t hold
    rw [releaseKvCache, if_neg (by rw [hdetached]; decide)] at hrelease
    cases hrelease
    refine h.setReq hold ⟨fun hr => ?_, fun hu => ?_, fun _ _ => rfl, fun _ => rfl⟩ ?_
      fun hno => nomatch hstage.symm.trans hno
    · simp [Turn.rejected, hdetached] at hr
    · simp [Turn.usesSlot] at hu
    · simp [Turn.live, hdetached]
  | retractAbort rid =>
    obtain ⟨t, hat, hrelease⟩ := bind_eq_some_iff.mp hstep
    obtain ⟨hold, hstage⟩ := at_eq hat
    have hdetached := hsafe t hold
    rw [releaseKvCache, if_neg (by rw [hdetached]; decide)] at hrelease
    cases hrelease
    exact h.setReq hold (turnOk_ended rfl) (by simp [Turn.live, hdetached])
      fun hno => nomatch hstage.symm.trans hno
  | close =>
    cases hstep
    exact h.close
  | reap timedOut =>
    cases hstep
    exact h.maybeReap timedOut

/-! ## Runs -/

theorem inv_of_run {events : List Event} (hsafe : Lib.Guarded step SafeStep .new events)
    (hrun : run events = some s) : s.Inv := by
  have hstart : new.Inv :=
    ⟨(fun _ _ h => nomatch h), ⟨(fun h => nomatch h), (fun ⟨_, _, h, _⟩ => nomatch h)⟩,
      (fun _ _ ⟨_, h, _⟩ => nomatch h), (fun _ h => nomatch h)⟩
  exact Lib.runFrom_invariant (fun _ _ _ h hstep => h.step hstep) hstart hsafe hrun

theorem Inv.flag_clear (h : s.Inv) (hnone : ∀ other, ¬s.Live other) : s.inflight = false := by
  by_contra hset
  obtain ⟨other, hlive⟩ := h.flag.mp (not_eq_false _ |>.mp hset)
  exact hnone other hlive

theorem Inv.accepts (h : s.Inv) (hopen : s.closed = false) (hstay : s.closeOnFinish = false)
    (hnone : ∀ other, ¬s.Live other) (hfresh : s.reqs rid = none) (invalid toGrammar : Bool) :
    ∃ s', s.step (.create rid true invalid toGrammar) = some s' ∧ s'.Live rid := by
  have hclear := h.flag_clear hnone
  have hcreate : s.step (.create rid true invalid toGrammar) = some ({ s with inflight := true }.setReq rid
      ⟨if toGrammar then .grammar else .waiting, true, true, invalid, false, false⟩) := by
    simp [Session.step, Session.createReq, hfresh, hopen, hstay, hclear]
  refine ⟨_, hcreate, live_setReq_self.mpr ?_⟩
  cases toGrammar <;> rfl

theorem Inv.reap_closes (h : s.Inv) (hdeferred : s.closeOnFinish = true) (hnone : ∀ other, ¬s.Live other)
    (timedOut : Bool) : (s.maybeReap timedOut).closed = true := by
  have hclear := h.flag_clear hnone
  have hdone : ∀ t, s.reqNode.bind s.reqs = some t → t.finished = true := by
    intro t ht
    obtain ⟨rid, hnode, hreq⟩ := bind_eq_some_iff.mp ht
    obtain ⟨u, hu, -, hfin⟩ := h.node rid hnode
    rwa [some.inj (hreq.symm.trans hu)]
  have hall : s.allRequestsFinished = true := by
    unfold allRequestsFinished
    cases hn : s.reqNode.bind s.reqs with
    | none => rfl
    | some t => exact hdone t hn
  have hidle : hasUnfinishedRequest { s with closeOnFinish := false } = false := by
    change (s.inflight || (s.reqNode.bind s.reqs).any fun t => !t.finished) = false
    rw [hclear]
    cases hn : s.reqNode.bind s.reqs with
    | none => rfl
    | some t => simp [hdone t hn]
  have hclose : (Session.close { s with closeOnFinish := false }).closed = true := by
    unfold Session.close
    split
    · assumption
    · rw [if_neg (by rw [hidle]; exact false_ne_true)]
  have hagain : ∀ s : Session, s.closed = true → s.close.closed = true := by
    intro s hs
    rwa [Session.close, if_pos hs]
  unfold Session.maybeReap
  simp only [hdeferred, hall]
  split
  · exact hagain _ hclose
  · exact hclose

/-- The flag is set for exactly one live request, at most one request is on the record of
the slot, the next request is accepted, and a deferred close is carried out. -/
theorem single_flight (events : List Event) (s : Session)
    (hsafe : Lib.Guarded step SafeStep .new events) (hrun : run events = some s) :
    (s.inflight = true ↔ ∃ rid, s.Live rid) ∧ (∀ rid rid', s.Live rid → s.Live rid' → rid = rid') ∧
    (∀ rid rid' t t', s.reqs rid = some t → s.reqs rid' = some t' → t.usesSlot = true →
      t'.usesSlot = true → rid = rid') ∧
    (∀ rid invalid toGrammar, s.closed = false → s.closeOnFinish = false → (∀ other, ¬s.Live other) →
      s.reqs rid = none → ∃ s', s.step (.create rid true invalid toGrammar) = some s' ∧ s'.Live rid) ∧
    ∀ timedOut s', s.closeOnFinish = true → (∀ other, ¬s.Live other) →
      s.step (.reap timedOut) = some s' → s'.closed = true := by
  have h := inv_of_run hsafe hrun
  refine ⟨h.flag, h.unique, fun rid rid' t t' ht ht' huses huses' => ?_,
    fun rid invalid toGrammar hopen hstay hnone hfresh => h.accepts hopen hstay hnone hfresh invalid toGrammar,
    fun timedOut s' hdeferred hnone hreap => ?_⟩
  · exact h.unique rid rid' ⟨t, ht, (h.turns rid t ht).restored huses⟩
      ⟨t', ht', (h.turns rid' t' ht').restored huses'⟩
  · rw [← some.inj hreap]
    exact h.reap_closes hdeferred hnone timedOut

/-- Two turns, then a close that waits for the second. -/
def twoTurns : List Event :=
  [.create 0 true false false, .schedule 0 true, .finish 0 false, .create 1 true false false,
    .schedule 1 true, .close, .finish 1 false]

theorem single_flight_two_turns : ∃ s, run twoTurns = some s ∧ s.closeOnFinish = true ∧
      ∀ timedOut s', (∀ other, ¬s.Live other) → s.step (.reap timedOut) = some s' → s'.closed = true := by
  refine ⟨_, rfl, rfl, fun timedOut s' => (single_flight twoTurns _ ?_ rfl).2.2.2.2 timedOut s' rfl⟩
  have haccepted : ∀ {s : Session} {rid : ℕ} {t : Turn}, s.reqs rid = some t → t.accepted = true →
      ∀ u, s.reqs rid = some u → u.rejected = true → ∀ other, ¬s.Live other := by
    intro s rid t ht hacc u hu hr
    obtain rfl := some.inj (ht.symm.trans hu)
    simp [Turn.rejected, hacc] at hr
  refine ⟨trivial, ?_⟩
  rintro _ ⟨⟩
  refine ⟨haccepted rfl rfl, ?_⟩
  rintro _ ⟨⟩
  refine ⟨haccepted rfl rfl, ?_⟩
  rintro _ ⟨⟩
  refine ⟨trivial, ?_⟩
  rintro _ ⟨⟩
  refine ⟨haccepted rfl rfl, ?_⟩
  rintro _ ⟨⟩
  refine ⟨trivial, ?_⟩
  rintro _ ⟨⟩
  exact ⟨haccepted rfl rfl, fun _ _ => trivial⟩

/-- A request is aborted while it waits: the flag stays, and the next request is
rejected. -/
theorem flight_wedged_by_queue_abort :
    ∃ s, run [.create 0 true false false, .drop 0 false] = some s ∧ s.inflight = true ∧
      (∀ rid, ¬s.Live rid) ∧ ∃ s', s.step (.create 1 true false false) = some s' ∧ ¬s'.Live 1 := by
  refine ⟨_, rfl, rfl, ?_, _, rfl, ?_⟩
  · rintro rid ⟨t, ht, hlive⟩
    by_cases hrid : rid = 0
    · subst hrid
      cases ht
      cases hlive
    · simp [hrid, new] at ht
  · rintro ⟨t, ht, hlive⟩
    cases ht
    cases hlive

/-- A rejected request clears the flag of the one that runs. -/
example : (run [.create 0 true false false, .schedule 0 true, .finish 0 false, .create 1 true false false,
    .schedule 1 true, .create 2 true false false, .schedule 2 true]).map
      (fun s => (s.inflight, (s.reqs 1).map Turn.live)) = some (false, some true) := rfl

/-- A retracted request waits with the flag cleared. -/
example : (run [.create 0 true false false, .schedule 0 true, .retract 0]).map
    (fun s => (s.inflight, (s.reqs 0).map Turn.live)) = some (false, some true) := rfl

end Session

end SparkInfer.Streaming
