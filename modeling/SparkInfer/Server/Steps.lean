import SparkInfer.Server.OneRequest

/-!
# A step of the server is a move of every request

`Careful` is the condition on a step under which the moves of `OneRequest` describe it.
-/

namespace SparkInfer.Server

open List Option World Local OutputFrame

variable {σ : Type} (cfg : Config σ)
variable {event : TmEvent} {c : Client} {i : ℕ} {v v' : View σ} {evs : List ChunkEvent}
variable {x : Rid}

def DetokMsg.answers (msg : DetokMsg) (r : Rid) : ℕ := (msg.mail r).countP Mail.isAnswer

def DetokMsg.rids : DetokMsg → List Rid
  | .chunks evs => evs.map ChunkEvent.rid
  | .register r _ | .decode r _ | .result r _ | .fail r _ | .deregister r => [r]

namespace World

/-- The request of the abort still waits in the inbox or at the tokenizer. -/
def Overtakes (w : World σ) (source : AbortSource) : Prop :=
  (∃ event ∈ w.inbox, event.rid = source.rid ∧ event.isMm = false) ∨
    ∃ req ∈ w.tokenizing, req.rid = source.rid

/-- Shard `s` writes no more items for the message than the sinks have room for. -/
def SinksFit (w : World σ) (s : ℕ) (msg : DetokMsg) : Prop :=
  ∀ r ∈ msg.rids, ∀ c ∈ w.clients r, ((w.shards s).table r).isSome = true →
    msg.answers r = 0 ∨ c.sent.length - c.taken + msg.answers r ≤ cfg.responseBuf

/-- No abort overtakes its request or finds the ring full, no sink is full when a shard
writes to it, and every batch of the scheduler names its requests. -/
def Careful (w : World σ) : Act → Prop
  | .intakeAbort => w.hasRoom cfg = true ∧ ∀ source ∈ w.abortLane.head?, ¬ w.Overtakes source
  | .shard s => ∀ msg ∈ (w.shards s).queue.head?, w.SinksFit cfg s msg
  | .emitBatch _ decoding => decoding ≠ .nameless
  | _ => True

instance (w : World σ) (source : AbortSource) : Decidable (w.Overtakes source) :=
  inferInstanceAs (Decidable ((∃ event ∈ w.inbox, _) ∨ ∃ req ∈ w.tokenizing, _))

instance (w : World σ) (s : ℕ) (msg : DetokMsg) : Decidable (w.SinksFit cfg s msg) :=
  inferInstanceAs (Decidable (∀ r ∈ msg.rids, ∀ c ∈ w.clients r, _ → _ ∨ _))

instance (w : World σ) : (act : Act) → Decidable (w.Careful cfg act)
  | .intakeAbort => inferInstanceAs (Decidable (_ ∧ ∀ source ∈ w.abortLane.head?, _))
  | .shard s => inferInstanceAs (Decidable (∀ msg ∈ (w.shards s).queue.head?, _))
  | .emitBatch _ decoding => inferInstanceAs (Decidable (decoding ≠ .nameless))
  | .submit _ | .receive _ | .disarm _ | .dropGuard _ | .close _ | .tokenizerDone _ _
  | .mmDone _ _ | .intakeEvent _ | .dispatch | .readRing _ | .emitResult _ _ | .forget _ =>
    .isTrue trivial

end World

variable {cfg} {w w' : World σ} {r : Rid} {msg : DetokMsg} {r : Rid} {reading : Reading}
variable {decoding : Decoding}

/-! ## Routing -/

namespace World.Routed

theorem sendBucket (hw : w.Routed cfg) (evs : List ChunkEvent) (s : ℕ) :
    (World.sendBucket cfg evs w s).Routed cfg := by
  unfold World.sendBucket
  dsimp only
  split
  · exact hw
  refine hw.enqueue fun r hmail => ?_
  obtain ⟨x, hx⟩ := exists_mem_of_ne_nil _ hmail
  obtain ⟨ev, hev, -⟩ := mem_map.mp hx
  obtain ⟨hbucket, hr⟩ := mem_filter.mp hev
  obtain ⟨-, hs⟩ := mem_filter.mp hbucket
  rw [← of_decide_eq_true hr]
  exact of_decide_eq_true hs

theorem dispatch (hw : w.Routed cfg) (frame : OutputFrame) : (w.dispatch cfg frame).Routed cfg := by
  have htell : ∀ (w : World σ) x msg, w.Routed cfg → msg.isFor x →
      (w.tell cfg x msg).Routed cfg := fun w x msg hw hmsg => (Local.tell w hmsg).routed hw
  cases frame with
  | batch evs =>
    simp only [World.dispatch]
    induction range cfg.numShards generalizing w with
    | nil => exact hw
    | cons s l ih => exact ih (hw.sendBucket evs s)
  | rejected rids =>
    induction rids generalizing w with
    | nil => exact hw
    | cons x rids ih => exact ih (htell w x _ hw (by intro r; simp [DetokMsg.mail, eq_comm]))
  | unreadable => exact hw
  | result x payload | error x message =>
    exact htell w x _ hw (by intro r; simp [DetokMsg.mail, eq_comm])

theorem handleMsg (hw : w.Routed cfg) {s : ℕ}
    (hroute : ∀ x, msg.mail x ≠ [] → cfg.shard x = s) : (w.handleMsg cfg s msg).Routed cfg := by
  cases msg with
  | register x b =>
    exact (Local.setEntry w s x fun _ _ => hroute x (by simp [DetokMsg.mail])).routed hw
  | chunks evs =>
    clear hroute
    induction evs generalizing w with
    | nil => exact hw
    | cons ev evs ih => exact ih ((Local.handleChunk w s ev).routed hw)
  | decode x tokenIds => exact (Local.handleDecode w s x tokenIds).routed hw
  | result x payload => exact (Local.handleResult w s x payload).routed hw
  | fail x message => exact (Local.handleFail w s x message).routed hw
  | deregister x => exact (Local.removeEntry w s x).routed hw

end World.Routed

/-! ## Handlers and worker pools -/

structure Stepped (cfg : Config σ) (w w' : World σ) : Prop where
  routed : w'.Routed cfg
  moves : ∀ r, Moves cfg r (w.view cfg r) (w'.view cfg r)

theorem Stepped.refl (hw : w.Routed cfg) : Stepped cfg w w := ⟨hw, fun _ => .refl⟩

theorem Local.stepped (h : Local cfg x w w') (hw : w.Routed cfg)
    (hmove : Move cfg x (w.view cfg x) (w'.view cfg x)) : Stepped cfg w w' := by
  refine ⟨h.routed hw, fun r => ?_⟩
  by_cases hr : r = x
  · subst hr
    exact .single hmove
  · rw [h.other r hr]

theorem Local.addEvent (w : World σ) (hx : event.rid = x) : Local cfg x w (w.addEvent event) := by
  refine of_shards rfl rfl fun r hr => ?_
  rw [view_addEvent, if_neg fun h => hr (h.symm.trans hx), append_nil]

section

variable (hw : w.Routed cfg) {req : Request}
include hw

theorem stepped_submit (hclient : w.clients req.rid = none) (hstate : req.state = .received) :
    Stepped cfg w ((w.setClient req.rid (.new req.kind)).addEvent (.intake req)) := by
  refine ((Local.setClient w req.rid _).trans (Local.addEvent _ rfl)).stepped hw ?_
  rw [view_addEvent, if_pos (show (TmEvent.intake req).rid = req.rid from rfl),
    view_setClient, if_pos rfl]
  exact .submit hclient rfl hstate

theorem stepped_setClient (h : Move cfg r (w.view cfg r) { w.view cfg r with client := some c }) :
    Stepped cfg w (w.setClient r c) := by
  refine (Local.setClient w r c).stepped hw ?_
  rwa [view_setClient, if_pos rfl]

theorem stepped_dropGuard (hclient : w.clients r = some c) : Stepped cfg w (w.dropGuard r c) := by
  unfold dropGuard
  split_ifs with harmed
  · refine ((Local.setClient w r _).trans (Local.sendAbort _ rfl)).stepped hw ?_
    rw [view_sendAbort, if_pos (show (AbortSource.guard r).rid = r from rfl),
      view_setClient, if_pos rfl]
    exact .dropGuard hclient harmed
  · exact .refl hw

omit hw in
theorem eraseIdx_split {α : Type} {l : List α} {a : α} (h : l[i]? = some a) :
    ∃ l₁ l₂, l = l₁ ++ a :: l₂ ∧ l.eraseIdx i = l₁ ++ l₂ := by
  obtain ⟨hi, rfl⟩ := List.getElem?_eq_some_iff.mp h
  refine ⟨l.take i, l.drop (i + 1), ?_, eraseIdx_eq_take_drop_succ l i⟩
  rw [← drop_eq_getElem_cons hi, take_append_drop]

theorem stepped_tokenizerDone (hreq : w.tokenizing[i]? = some req) (ids : Except Error (List ℤ)) :
    Stepped cfg w
      ({ w with tokenizing := w.tokenizing.eraseIdx i }.addEvent (tokenized req ids)) := by
  obtain ⟨req', hevent, hrid, hkind, hstate⟩ : ∃ req', tokenized req ids = .tokenized req' ∧
      req'.rid = req.rid ∧ (req.kind.isGenerate = true → req'.kind.isGenerate = true) ∧
      (req.state = .tokenizing →
        req'.state = .preSendValidating ∨ ∃ e, req'.state = .failed e) := by
    obtain ⟨rid, len, state, kind⟩ := req
    cases ids with
    | error e =>
      refine ⟨_, rfl, rfl, id, ?_⟩
      rintro rfl
      exact .inr ⟨e, rfl⟩
    | ok ids =>
      refine ⟨_, rfl, rfl, ?_, ?_⟩
      · cases kind with
        | generate g => exact fun _ => rfl
        | control | detokenize l => exact id
      · rintro rfl
        exact .inl rfl
  obtain ⟨l₁, l₂, hsplit, herase⟩ := eraseIdx_split hreq
  rw [hevent, herase]
  have hlocal : Local cfg req.rid w { w with tokenizing := l₁ ++ l₂ } := by
    refine .of_shards rfl rfl fun r hr => ?_
    simp [view, pushed, hsplit, Ne.symm hr]
  have hrid' : (TmEvent.tokenized req').rid = req.rid := hrid
  refine (hlocal.trans (addEvent _ hrid')).stepped hw ?_
  rw [view_addEvent, if_pos hrid']
  have hview : { w with tokenizing := l₁ ++ l₂ }.view cfg req.rid
      = { w.view cfg req.rid with
          tokenizing := (l₁.filter fun q => q.rid = req.rid) ++ l₂.filter fun q => q.rid = req.rid } := by
    simp [view, pushed]
  rw [hview]
  refine .tokenizerDone ?_ hrid hkind hstate
  simp [view, hsplit]

theorem stepped_mmDone (hx : w.encoding[i]? = some x) (hmm : event.isMm = true)
    (hevent : event.rid = x) :
    Stepped cfg w ({ w with encoding := w.encoding.eraseIdx i }.addEvent event) := by
  obtain ⟨l₁, l₂, hsplit, herase⟩ := eraseIdx_split hx
  rw [herase]
  have hlocal : Local cfg x w { w with encoding := l₁ ++ l₂ } := by
    refine .of_shards rfl rfl fun r hr => ?_
    simp [view, pushed, hsplit, Ne.symm hr]
  refine (hlocal.trans (addEvent _ hevent)).stepped hw ?_
  rw [view_addEvent, if_pos hevent]
  have hview : { w with encoding := l₁ ++ l₂ }.view cfg x
      = { w.view cfg x with
          encoding := (l₁.filter fun y => y = x) ++ l₂.filter fun y => y = x } := by
    simp [view, pushed]
  rw [hview]
  refine .mmDone ?_ hmm hevent
  simp [view, hsplit]

/-! ## The intake, the dispatcher and the shards -/

theorem stepped_intakeEvent {rest : List TmEvent}
    (hinbox : w.inbox = event :: rest) (mmFull : Bool) :
    Stepped cfg w ({ w with inbox := rest }.onEvent cfg mmFull event) := by
  have hpop : { w with inbox := rest }.Routed cfg :=
    { hw with }
  have hlocal := onEvent hpop mmFull event
  refine ⟨hlocal.routed hpop, fun r => ?_⟩
  have hview := @view_popEvent σ cfg w r event rest hinbox
  by_cases hr : event.rid = r
  · rw [if_pos hr] at hview
    rw [hview]
    exact .single (.handle rfl (onEvent_self _ mmFull hr))
  · rw [if_neg hr] at hview
    rw [hlocal.other r (Ne.symm hr), hview]
    exact .refl

theorem stepped_intakeAbort {source : AbortSource} {rest : List AbortSource}
    (hlane : w.abortLane = source :: rest) (hroom : w.hasRoom cfg = true)
    (horder : ¬ w.Overtakes source) :
    Stepped cfg w ({ w with abortLane := rest }.onAbort cfg source) := by
  have hpop : { w with abortLane := rest }.Routed cfg :=
    { hw with }
  have hlocal := @Local.onAbort σ cfg { w with abortLane := rest } source
  refine ⟨hlocal.routed hpop, fun r => ?_⟩
  have hview := @view_popAbort σ cfg w r source rest hlane
  by_cases hr : source.rid = r
  · subst hr
    rw [if_pos rfl] at hview
    rw [onAbort_self { w with abortLane := rest } source hroom, hview]
    refine .single (.abort rfl ?_ ?_)
    · intro event hevent
      obtain ⟨hmem, hrid⟩ := mem_filter.mp hevent
      by_contra hmm
      exact horder (.inl ⟨event, hmem, of_decide_eq_true hrid, by simpa using hmm⟩)
    · refine filter_eq_nil_iff.mpr fun req hmem hrid => ?_
      exact horder (.inr ⟨req, hmem, of_decide_eq_true hrid⟩)
  · rw [if_neg hr] at hview
    rw [hlocal.other r (Ne.symm hr), hview]
    exact .refl

theorem stepped_dispatch {frame : OutputFrame} {rest : List OutputFrame}
    (houtputs : w.outputs = frame :: rest) :
    Stepped cfg w ({ w with outputs := rest }.dispatch cfg frame) := by
  have hpop : { w with outputs := rest }.Routed cfg :=
    { hw with }
  refine ⟨hpop.dispatch frame, fun r => ?_⟩
  rw [dispatch_view, view_popOutput houtputs]
  exact .single (.deliver rfl)

end

theorem Opened.setMail {x : Mail} (h : Opened cfg r v x v') (mail : List Mail) :
    Opened cfg r { v with mail := mail } x { v' with mail := mail } := by
  cases h with
  | register b => exact .register b
  | deregister => exact .deregister
  | dropped hentry hx => exact .dropped hentry hx
  | ended hentry hx hitem hsources hdecode => exact .ended hentry hx hitem hsources hdecode
  | framed hentry hfinish hclient hopen hroom => exact .framed hentry hfinish hclient hopen hroom
  | lost hentry hfinish hclient hsources => exact .lost hentry hfinish hclient hsources

theorem OpenedAll.mail_eq {xs : List Mail} (h : OpenedAll cfg r v xs v') : v'.mail = v.mail := by
  induction h with
  | nil v => rfl
  | cons h _ ih =>
    rw [ih]
    cases h <;> rfl

theorem OpenedAll.single {x : Mail} (h : OpenedAll cfg r v [x] v') : Opened cfg r v x v' := by
  cases h with
  | cons h hrest =>
    cases hrest
    exact h

def Client.fits (cfg : Config σ) (n : ℕ) (c : Client) : Prop :=
  c.sent.length - c.taken + n ≤ cfg.responseBuf

theorem Client.fits.not_full {n : ℕ} (h : c.fits cfg (n + 1)) : c.full cfg = false := by
  unfold fits at h
  simp only [full, decide_eq_false_iff_not]
  omega

theorem Client.fits.append {n : ℕ} (h : c.fits cfg (n + 1)) (item : ResponseItem) :
    fits cfg n { c with sent := c.sent ++ [item] } := by
  unfold fits at *
  simp only [length_append, length_singleton]
  omega

theorem moves_answers {v v' : View σ} {xs ys : List Mail} (h : OpenedAll cfg r v xs v')
    (hxs : ∀ x ∈ xs, x.isAnswer = true)
    (hfits : v.entry.isSome = true → ∀ c, v.client = some c → c.fits cfg xs.length) :
    Moves cfg r { v with mail := xs ++ ys } { v' with mail := ys } := by
  induction h with
  | nil v => exact .refl
  | @cons v v₁ v' x xs h hrest ih =>
    have hx := hxs x mem_cons_self
    have hstep : Move cfg r { v with mail := x :: xs ++ ys } { v₁ with mail := xs ++ ys } :=
      .opens rfl (fun _ hentry c hc => (hfits hentry c hc).not_full) (h.setMail (xs ++ ys))
    refine .head hstep (ih ((forall_mem_cons.mp hxs).2) ?_)
    cases h with
    | register b | deregister => cases hx
    | dropped hentry _ => exact fun hsome => absurd hsome (by simp [hentry])
    | ended | lost => exact fun hsome => absurd hsome (by simp)
    | framed hentry _ hclient _ _ =>
      rintro - c hc
      cases hc
      exact (hfits hentry _ hclient).append _

theorem DetokMsg.mail_answers (msg : DetokMsg) :
    (∀ x ∈ msg.mail r, x.isAnswer = true) ∨ ∃ x, msg.mail r = [x] ∧ x.isAnswer = false := by
  cases msg with
  | register x b =>
    by_cases hx : x = r
    · exact .inr ⟨.register b, by simp [mail, hx], rfl⟩
    · exact .inl (by simp [mail, hx])
  | deregister x =>
    by_cases hx : x = r
    · exact .inr ⟨.deregister, by simp [mail, hx], rfl⟩
    · exact .inl (by simp [mail, hx])
  | chunks evs =>
    refine .inl fun x hx => ?_
    obtain ⟨ev, -, rfl⟩ := mem_map.mp hx
    rfl
  | decode x ids | result x payload | fail x message => exact .inl (by simp [mail, Mail.isAnswer])

theorem DetokMsg.mem_rids (msg : DetokMsg) (h : msg.mail r ≠ []) : r ∈ msg.rids := by
  cases msg with
  | chunks evs =>
    obtain ⟨x, hx⟩ := exists_mem_of_ne_nil _ h
    obtain ⟨ev, hev, -⟩ := mem_map.mp hx
    obtain ⟨hmem, hr⟩ := mem_filter.mp hev
    exact mem_map.mpr ⟨ev, hmem, of_decide_eq_true hr⟩
  | register x _ | decode x _ | result x _ | fail x _ | deregister x =>
    simpa [mail, rids, eq_comm] using h

theorem stepped_shard (hw : w.Routed cfg) {s : ℕ} {rest : List DetokMsg}
    (hqueue : (w.shards s).queue = msg :: rest) (hfit : w.SinksFit cfg s msg) :
    Stepped cfg w ((w.setShard s { w.shards s with queue := rest }).handleMsg cfg s msg) := by
  have hroute : ∀ x, msg.mail x ≠ [] → cfg.shard x = s := hw.mail s msg (hqueue ▸ mem_cons_self)
  have hpop : (w.setShard s { w.shards s with queue := rest }).Routed cfg :=
    hw.setShard (fun m hm => hw.mail s m (hqueue ▸ mem_cons_of_mem _ hm)) (hw.table s)
  refine ⟨hpop.handleMsg hroute, fun r => ?_⟩
  have hview := @view_popMsg σ cfg w r s msg rest hqueue
  have hopened := handleMsg_opened (w.setShard s { w.shards s with queue := rest }) msg r hroute
  generalize hw' : w.setShard s { w.shards s with queue := rest } = w₁ at hview hopened hpop ⊢
  by_cases hmail : msg.mail r = []
  · rw [hmail] at hopened hview
    rw [ite_self] at hview
    rw [hview]
    generalize (w₁.handleMsg cfg s msg).view cfg r = v' at hopened ⊢
    cases hopened
    exact .refl
  have hs := hroute r hmail
  rw [if_pos hs.symm] at hview
  have hsame := hopened.mail_eq
  rw [hview]
  rcases msg.mail_answers with hall | ⟨x, hx, hnot⟩
  · have hmoves := @moves_answers σ cfg r _ _ _ (w₁.view cfg r).mail hopened hall ?_
    · have hend : { (w₁.handleMsg cfg s msg).view cfg r with mail := (w₁.view cfg r).mail }
          = (w₁.handleMsg cfg s msg).view cfg r := by
        rw [← hsame]
      rwa [hend] at hmoves
    intro hentry c hc
    have hclient : w.clients r = some c := by
      have h := congrArg View.client hview
      exact h.trans hc
    have htable : ((w.shards s).table r).isSome = true := by
      have h := congrArg View.entry hview
      rwa [← hs, show (w.shards (cfg.shard r)).table r = (w.view cfg r).entry from rfl, h]
    have hcount : msg.answers r = (msg.mail r).length := countP_eq_length.mpr hall
    rcases hfit r (msg.mem_rids hmail) c hclient htable with h | h
    · exact absurd (length_eq_zero_iff.mp (hcount ▸ h)) hmail
    · rwa [hcount] at h
  · rw [hx] at hopened ⊢
    exact .single (.opens rfl (fun hans => absurd hans (by simp [hnot])) hopened.single)

/-! ## The scheduler -/

theorem World.view_popRing {msg : SchedulerRequest} {rest : List SchedulerRequest}
    (hring : w.ring = msg :: rest) : w.view cfg r =
      { ({ w with ring := rest, drained := w.drained ++ [msg] } : World σ).view cfg r with
        unread := (if msg.rid = r then [msg] else []) ++
          ({ w with ring := rest, drained := w.drained ++ [msg] }.view cfg r).unread } := by
  by_cases h : msg.rid = r <;> simp [view, pushed, hring, h]

/-- What the scheduler makes of a message, seen by its request. -/
def Reads (cfg : Config σ) (msg : SchedulerRequest) (w w' : World σ) : Prop :=
  Local cfg msg.rid w w' ∧
    Move cfg msg.rid { w.view cfg msg.rid with unread := msg :: (w.view cfg msg.rid).unread }
      (w'.view cfg msg.rid)

theorem Reads.of_view {msg : SchedulerRequest} (hshards : w'.shards = w.shards)
    (hparked : w'.pendingMm = w.pendingMm)
    (hother : ∀ r, r ≠ msg.rid → w'.view cfg r = w.view cfg r) (hmove : Move cfg msg.rid
      { w.view cfg msg.rid with unread := msg :: (w.view cfg msg.rid).unread } v)
    (hself : w'.view cfg msg.rid = v) : Reads cfg msg w w' :=
  ⟨.of_shards hshards hparked hother, hself ▸ hmove⟩

theorem read_self {msg : SchedulerRequest} (h : w.read msg reading = some w') :
    Reads cfg msg w w' := by
  have htakes : msg.isFrame = true → Reads cfg msg w { w with owed := msg.rid :: w.owed } := by
    refine fun hframe => .of_view rfl rfl (fun r hr => ?_) (.takes rfl hframe) ?_
    · simp [view, pushed, hr]
    · simp [view, pushed]
  have hrefuses : ∀ message, msg.isFrame = true →
      Reads cfg msg w { w with outputs := w.outputs ++ [.error msg.rid message] } := by
    intro message hframe
    have hself : ({ w with outputs := w.outputs ++ [.error msg.rid message] } : World σ).view cfg msg.rid
        = { w.view cfg msg.rid with letters := (w.view cfg msg.rid).letters ++ [.fail message] } := by
      simp [view, pushed, mail]
    refine .of_view rfl rfl (fun r hr => ?_) (.refuses rfl hframe) hself
    simp [view, pushed, mail, Ne.symm hr]
  have hpasses : msg.isFrame = true →
      Reads cfg msg w { w with skipped := msg.rid :: w.skipped } := by
    refine fun hframe => .of_view rfl rfl (fun r hr => ?_) (.passesOver rfl hframe) ?_
    · simp [view, pushed, hr]
    · simp [view, pushed]
  cases reading with
  | takes =>
    cases msg with
    | abortReq x =>
      cases h
      refine .of_view rfl rfl (fun r hr => ?_) (.readAbort rfl) ?_
      · have hne : r ≠ x := hr
        simp [view, pushed, hne]
      · simp [view, pushed, SchedulerRequest.rid]
    | generate x g | control x =>
      cases h
      exact htakes rfl
  | refuses message =>
    cases msg with
    | abortReq x => cases h
    | generate x g | control x =>
      cases h
      exact hrefuses _ rfl
  | passesOver =>
    cases msg with
    | abortReq x | control x => cases h
    | generate x g =>
      obtain ⟨-, ⟨⟩⟩ := ite_none_right_eq_some.mp h
      exact hpasses rfl

theorem stepped_read (hw : w.Routed cfg) {msg : SchedulerRequest} {rest : List SchedulerRequest}
    (hring : w.ring = msg :: rest)
    (h : ({ w with ring := rest, drained := w.drained ++ [msg] } : World σ).read msg reading
      = some w') : Stepped cfg w w' := by
  obtain ⟨hlocal, hmove⟩ := @read_self σ cfg _ _ _ _ h
  have hview := fun r => @view_popRing σ cfg w r msg rest hring
  have hw₁ : { w with ring := rest, drained := w.drained ++ [msg] }.Routed cfg :=
    { hw with }
  generalize { w with ring := rest, drained := w.drained ++ [msg] } = w₁ at *
  have hother : Local cfg msg.rid w w₁ := by
    refine ⟨fun r hr => ?_, fun _ => hw₁⟩
    rw [hview r, if_neg (Ne.symm hr)]
    rfl
  refine (hother.trans hlocal).stepped hw ?_
  rwa [hview msg.rid, if_pos rfl]

def endedRids (evs : List ChunkEvent) : List Rid :=
  (evs.filter fun ev => ev.finishReason.isSome).map ChunkEvent.rid

theorem outputFrame_answers (decoding : Decoding) :
    ∀ x ∈ (outputFrame evs decoding).mail r, x.isAnswer = true := by
  intro x hx
  cases decoding with
  | good =>
    obtain ⟨ev, -, rfl⟩ := mem_map.mp hx
    rfl
  | named =>
    obtain ⟨_, -, rfl⟩ := mem_map.mp hx
    rfl
  | nameless => cases hx

/-- A batch that ends request `r` says so, decoded or not. -/
theorem outputFrame_ends (hnamed : decoding ≠ .nameless) (hended : r ∈ endedRids evs) :
    ∃ x ∈ (outputFrame evs decoding).mail r, x.ends = true := by
  obtain ⟨ev, hev, rfl⟩ := mem_map.mp hended
  obtain ⟨hmem, hfinish⟩ := mem_filter.mp hev
  cases decoding with
  | good => exact ⟨.chunk ev, mem_map_of_mem (mem_filter.mpr ⟨hmem, by simp⟩), hfinish⟩
  | named =>
    refine ⟨_, mem_map_of_mem (mem_filter.mpr ⟨mem_map_of_mem hmem, by simp⟩), rfl⟩
  | nameless => exact absurd rfl hnamed

theorem outputFrame_silent (h : ∀ ev ∈ evs, ev.rid ≠ r)
    (decoding : Decoding) : (outputFrame evs decoding).mail r = [] := by
  cases decoding with
  | good | named => simpa [outputFrame, mail] using h
  | nameless => rfl

variable (hw : w.Routed cfg)
include hw

theorem stepped_emitBatch (hnamed : decoding ≠ .nameless)
    (howed : ∀ ev ∈ evs, w.owed.contains ev.rid = true) : Stepped cfg w { w with
      owed := w.owed.filter fun r => !(endedRids evs).contains r
      outputs := w.outputs ++ [outputFrame evs decoding] } := by
  refine ⟨{ hw with }, fun r => ?_⟩
  have hview : { w with
      owed := w.owed.filter fun r => !(endedRids evs).contains r
      outputs := w.outputs ++ [outputFrame evs decoding] }.view cfg r
      = { w.view cfg r with
          letters := (w.view cfg r).letters ++ (outputFrame evs decoding).mail r
          owed := (w.owed.filter fun r => !(endedRids evs).contains r).contains r } := by
    simp [view, pushed]
  rw [hview]
  by_cases hmem : ∃ ev ∈ evs, ev.rid = r
  · obtain ⟨ev, hev, rfl⟩ := hmem
    have howned : ev.rid ∈ w.owed := by simpa using howed ev hev
    refine .single (.emits (howed ev hev) (outputFrame_answers decoding) fun hfalse => ?_)
    refine outputFrame_ends hnamed ?_
    by_contra hnot
    exact absurd hfalse (by simp [howned, hnot])
  · push Not at hmem
    have hended : r ∉ endedRids evs := by
      intro hr
      obtain ⟨ev, hev, hrid⟩ := mem_map.mp hr
      exact hmem ev (mem_filter.mp hev).1 hrid
    rw [outputFrame_silent hmem, append_nil]
    have hsame : (w.owed.filter fun r => !(endedRids evs).contains r).contains r
        = w.owed.contains r := by
      simp [hended]
    rw [hsame]
    exact .refl

theorem stepped_emitResult (howed : w.owed.contains x = true) (payload : Bytes) :
    Stepped cfg w { w with
      owed := w.owed.filter fun r => r != x
      outputs := w.outputs ++ [.result x payload] } := by
  refine stepped (x := x) (.of_shards rfl rfl fun r hr => ?_) hw ?_
  · simp [view, pushed, mail, Ne.symm hr, hr]
  have hview : ({ w with
      owed := w.owed.filter fun r => r != x
      outputs := w.outputs ++ [.result x payload] } : World σ).view cfg x
      = { w.view cfg x with letters := (w.view cfg x).letters ++ [.result payload], owed := false } := by
    simp [view, pushed, mail]
  rw [hview]
  refine .emits howed ?_ fun _ => ⟨_, mem_singleton_self _, rfl⟩
  rintro y hy
  obtain rfl := mem_singleton.mp hy
  rfl

theorem stepped_forget (howed : w.owed.contains x = true) (haborted : w.aborted.contains x = true) :
    Stepped cfg w { w with owed := w.owed.filter fun r => r != x } := by
  refine stepped (x := x) (.of_shards rfl rfl fun r hr => ?_) hw ?_
  · simp [view, pushed, hr]
  have hview : { w with owed := w.owed.filter fun r => r != x }.view cfg x
      = { w.view cfg x with owed := false } := by
    simp [view, pushed]
  rw [hview]
  exact .forgets howed haborted

/-- A careful step is a sequence of moves for every request. -/
theorem World.step_stepped {act : Act} (hok : w.Careful cfg act) (h : w.step cfg act = some w') :
    Stepped cfg w w' := by
  cases act with
  | submit req =>
    obtain ⟨hnew, ⟨⟩⟩ := ite_none_right_eq_some.mp h
    exact stepped_submit hw (isNone_iff_eq_none.mp hnew.1) hnew.2
  | receive r =>
    obtain ⟨c, hc, h⟩ := bind_eq_some_iff.mp h
    obtain ⟨-, ⟨⟩⟩ := ite_none_right_eq_some.mp h
    exact stepped_setClient hw (.receive hc)
  | disarm r =>
    obtain ⟨c, hc, h⟩ := bind_eq_some_iff.mp h
    obtain ⟨-, ⟨⟩⟩ := ite_none_right_eq_some.mp h
    exact stepped_setClient hw (.disarm hc)
  | dropGuard r =>
    obtain ⟨c, hc, rfl⟩ := map_eq_some_iff.mp h
    exact stepped_dropGuard hw hc
  | close r =>
    obtain ⟨c, hc, rfl⟩ := map_eq_some_iff.mp h
    exact stepped_setClient hw (.close hc)
  | tokenizerDone i ids =>
    obtain ⟨req, hreq, rfl⟩ := map_eq_some_iff.mp h
    exact stepped_tokenizerDone hw hreq ids
  | mmDone i ids =>
    obtain ⟨x, hx, rfl⟩ := map_eq_some_iff.mp h
    cases ids with
    | ok ids | error message => exact stepped_mmDone hw hx rfl rfl
  | intakeEvent mmFull =>
    cases hinbox : w.inbox <;> rw [step, hinbox] at h <;> cases h
    exact stepped_intakeEvent hw hinbox mmFull
  | intakeAbort =>
    cases hlane : w.abortLane <;> rw [step, hlane] at h <;> cases h
    exact stepped_intakeAbort hw hlane hok.1 (hok.2 _ (by rw [hlane]; rfl))
  | shard s =>
    cases hqueue : (w.shards s).queue <;> rw [step, hqueue] at h <;> cases h
    exact stepped_shard hw hqueue (hok _ (by rw [hqueue]; rfl))
  | dispatch =>
    cases houtputs : w.outputs <;> rw [step, houtputs] at h <;> cases h
    exact stepped_dispatch hw houtputs
  | readRing reading =>
    cases hring : w.ring with
    | nil =>
      rw [step, hring] at h
      cases h
    | cons msg rest =>
      rw [step, hring] at h
      exact stepped_read hw hring h
  | emitBatch evs decoding =>
    obtain ⟨howed, ⟨⟩⟩ := ite_none_right_eq_some.mp h
    exact stepped_emitBatch hw hok (all_eq_true.mp howed)
  | emitResult r payload =>
    obtain ⟨howed, ⟨⟩⟩ := ite_none_right_eq_some.mp h
    exact stepped_emitResult hw howed payload
  | forget r =>
    obtain ⟨hboth, ⟨⟩⟩ := ite_none_right_eq_some.mp h
    obtain ⟨howed, haborted⟩ := (Bool.and_eq_true _ _).mp hboth
    exact stepped_forget hw howed haborted

end SparkInfer.Server
