import SparkInfer.Server.Drive
import SparkInfer.Server.Shards
import Mathlib.Logic.Relation

/-!
# A run of the server, seen by one request

The moves of one request's view, and the theorem that a step of the server is a sequence
of moves for every request.  The moves are those of careful runs: an abort is handled only
when its request does not wait in the inbox or at the tokenizer, and a shard finds room in
every sink it writes to.
-/

namespace SparkInfer.Server

open List World OutputFrame

variable {σ : Type}

def TmEvent.isMm : TmEvent → Bool
  | .mmEncoded _ _ | .mmFailed _ _ => true
  | _ => false

def Handled (cfg : Config σ) (r : Rid) (v v' : View σ) : TmEvent → Prop
  | .intake req => req.state = .received →
    (∃ e, v' = { v with client := v.client.map fun c => (c.trySend cfg (.error e)).1 }) ∨
    ∃ noStopTrim, Goes cfg r req.kind { v with mail := v.mail ++ [.register noStopTrim] } v'
  | .tokenized req => req.kind.isGenerate = true →
    (req.state = .preSendValidating ∨ ∃ e, req.state = .failed e) → Finishes cfg r v v'
  | .mmEncoded _ _ | .mmFailed _ _ =>
    (v.parked = none → v' = v) ∧
    ∀ req, v.parked = some req → req.rid = r → req.state = .encoding →
      req.kind.isGenerate = true → Finishes cfg r { v with parked := none } v'

inductive Move (cfg : Config σ) (r : Rid) (v : View σ) : View σ → Prop
  | submit {req : Request} (hclient : v.client = none) (hr : req.rid = r)
      (hstate : req.state = .received) :
    Move cfg r v { v with
      client := some (.new req.kind)
      events := v.events ++ [.intake req] }
  | receive {c : Client} (hclient : v.client = some c) :
    Move cfg r v { v with client := some { c with taken := c.taken + 1 } }
  | disarm {c : Client} (hclient : v.client = some c) :
    Move cfg r v { v with client := some { c with armed := false } }
  | dropGuard {c : Client} (hclient : v.client = some c) (harmed : c.armed = true) :
    Move cfg r v { v with
      client := some { c with armed := false, abandoned := true }
      lane := v.lane ++ [.guard r] }
  | close {c : Client} (hclient : v.client = some c) :
    Move cfg r v { v with client := some { c with closed := true } }
  | tokenizerDone {req req' : Request} {l₁ l₂ : List Request}
      (htokenizing : v.tokenizing = l₁ ++ req :: l₂) (hr : req'.rid = r)
      (hkind : req.kind.isGenerate = true → req'.kind.isGenerate = true)
      (hstate : req.state = .tokenizing →
        req'.state = .preSendValidating ∨ ∃ e, req'.state = .failed e) :
    Move cfg r v { v with
      tokenizing := l₁ ++ l₂
      events := v.events ++ [.tokenized req'] }
  | mmDone {event : TmEvent} {l₁ l₂ : List Rid} (hencoding : v.encoding = l₁ ++ r :: l₂)
      (hmm : event.isMm = true) (hr : event.rid = r) :
    Move cfg r v { v with encoding := l₁ ++ l₂, events := v.events ++ [event] }
  | handle {event : TmEvent} {rest : List TmEvent} {v' : View σ}
      (hevents : v.events = event :: rest)
      (h : Handled cfg r { v with events := rest } v' event) : Move cfg r v v'
  | abort {source : AbortSource} {rest : List AbortSource} (hlane : v.lane = source :: rest)
      (hevents : ∀ event ∈ v.events, event.isMm = true) (htokenizing : v.tokenizing = []) :
    Move cfg r v { v with
      lane := rest
      parked := none
      mail := v.mail ++ [.deregister]
      pushed := v.pushed ++ [.abortReq r]
      unread := v.unread ++ [.abortReq r] }
  | deliver {xs ys : List Mail} (hletters : v.letters = xs ++ ys) :
    Move cfg r v { v with mail := v.mail ++ xs, letters := ys }
  | opens {x : Mail} {xs : List Mail} {v' : View σ} (hmail : v.mail = x :: xs)
      (hroom : x.isAnswer = true → v.entry.isSome = true →
        ∀ c, v.client = some c → c.full cfg = false)
      (h : Opened cfg r { v with mail := xs } x v') : Move cfg r v v'
  | readAbort {rest : List SchedulerRequest} (hunread : v.unread = .abortReq r :: rest) :
    Move cfg r v { v with unread := rest, aborted := true }
  | takes {msg : SchedulerRequest} {rest : List SchedulerRequest} (hunread : v.unread = msg :: rest)
      (hframe : msg.isFrame = true) :
    Move cfg r v { v with unread := rest, owed := true }
  | refuses {msg : SchedulerRequest} {rest : List SchedulerRequest} {message : String}
      (hunread : v.unread = msg :: rest) (hframe : msg.isFrame = true) :
    Move cfg r v { v with unread := rest, letters := v.letters ++ [.fail message] }
  | passesOver {msg : SchedulerRequest} {rest : List SchedulerRequest}
      (hunread : v.unread = msg :: rest) (hframe : msg.isFrame = true) :
    Move cfg r v { v with unread := rest, skipped := true }
  | emits {xs : List Mail} {owed : Bool} (howed : v.owed = true)
      (hxs : ∀ x ∈ xs, x.isAnswer = true)
      (hend : owed = false → ∃ x ∈ xs, x.ends = true) :
    Move cfg r v { v with letters := v.letters ++ xs, owed := owed }
  | forgets (howed : v.owed = true) (haborted : v.aborted = true) :
    Move cfg r v { v with owed := false }

abbrev Moves (cfg : Config σ) (r : Rid) : View σ → View σ → Prop :=
  Relation.ReflTransGen (Move cfg r)

variable {cfg : Config σ} {w w' : World σ} {r : Rid} {event : TmEvent}

/-! ## Queues -/

namespace World

theorem view_addEvent (event : TmEvent) : (w.addEvent event).view cfg r
      = { w.view cfg r with
          events := (w.view cfg r).events ++ if event.rid = r then [event] else [] } := by
  by_cases h : event.rid = r <;> simp [view, addEvent, pushed, h]

theorem view_popEvent {rest : List TmEvent} (hinbox : w.inbox = event :: rest) :
    w.view cfg r = { ({ w with inbox := rest } : World σ).view cfg r with
      events := (if event.rid = r then [event] else []) ++
        ({ w with inbox := rest }.view cfg r).events } := by
  by_cases h : event.rid = r <;> simp [view, pushed, hinbox, h]

theorem view_popAbort {source : AbortSource} {rest : List AbortSource}
    (hlane : w.abortLane = source :: rest) :
    w.view cfg r = { ({ w with abortLane := rest } : World σ).view cfg r with
      lane := (if source.rid = r then [source] else []) ++
        ({ w with abortLane := rest }.view cfg r).lane } := by
  by_cases h : source.rid = r <;> simp [view, pushed, hlane, h]

theorem view_popOutput {frame : OutputFrame} {rest : List OutputFrame}
    (houtputs : w.outputs = frame :: rest) :
    w.view cfg r = { ({ w with outputs := rest } : World σ).view cfg r with
      letters := frame.mail r ++ ({ w with outputs := rest }.view cfg r).letters } := by
  simp [view, pushed, houtputs]

theorem view_popMsg {s : ℕ} {msg : DetokMsg} {rest : List DetokMsg}
    (hqueue : (w.shards s).queue = msg :: rest) :
    w.view cfg r = { (w.setShard s { w.shards s with queue := rest }).view cfg r with
      mail := (if s = cfg.shard r then msg.mail r else []) ++
        ((w.setShard s { w.shards s with queue := rest }).view cfg r).mail } := by
  by_cases h : s = cfg.shard r
  · subst h
    simp [view, setShard, pushed, hqueue]
  · simp [view, setShard, pushed, h, Function.update_of_ne (Ne.symm h)]

end World

/-! ## The intake -/

theorem onEvent_self (w : World σ) (mmFull : Bool) (hr : event.rid = r) :
    Handled cfg r (w.view cfg r) ((w.onEvent cfg mmFull event).view cfg r) event := by
  have hview : ∀ x, (w.setPending x none).view cfg x = { w.view cfg x with parked := none } :=
    fun x => by rw [view_setPending, if_pos rfl]
  cases event with
  | intake req =>
    intro hstate
    rcases drive_received w hr hstate with ⟨e, h⟩ | h
    · exact .inl ⟨e, h⟩
    · exact .inr ⟨_, h⟩
  | tokenized req => exact drive_returned w hr
  | mmEncoded x ids =>
    obtain rfl : x = r := hr
    refine ⟨fun hparked => ?_, fun req hparked hrid hstate hkind => ?_⟩
    · have hnone : w.pendingMm x = none := hparked
      simp only [onEvent, onMmEncoded, hnone]
    have hsome : w.pendingMm x = some req := hparked
    obtain ⟨rid, len, state, kind⟩ := req
    obtain rfl : state = .encoding := hstate
    simp only [onEvent, onMmEncoded, hsome]
    rw [← hview x]
    cases kind with
    | generate g => exact drive_returned _ hrid rfl (.inl rfl)
    | control | detokenize ids => cases hkind
  | mmFailed x message =>
    obtain rfl : x = r := hr
    refine ⟨fun hparked => ?_, fun req hparked hrid hstate hkind => ?_⟩
    · have hnone : w.pendingMm x = none := hparked
      simp only [onEvent, onMmFailed, hnone]
    have hsome : w.pendingMm x = some req := hparked
    simp only [onEvent, onMmFailed, hsome]
    rw [← hview x]
    exact finishes_fail _ hrid _

namespace Local

theorem onEvent (hw : w.Routed cfg) (mmFull : Bool) (event : TmEvent) :
    Local cfg event.rid w (w.onEvent cfg mmFull event) := by
  cases event with
  | intake req | tokenized req => exact driveLoop 7 w _ rfl
  | mmEncoded x ids =>
    cases hparked : w.pendingMm x with
    | none =>
      simp only [World.onEvent, World.onMmEncoded, hparked]
      exact refl w
    | some req =>
      simp only [World.onEvent, World.onMmEncoded, hparked]
      exact (setPending w x (by simp)).trans (driveLoop 7 _ _ (hw.parked x req hparked))
  | mmFailed x message =>
    cases hparked : w.pendingMm x with
    | none =>
      simp only [World.onEvent, World.onMmFailed, hparked]
      exact refl w
    | some req =>
      simp only [World.onEvent, World.onMmFailed, hparked]
      exact (setPending w x (by simp)).trans (fail _ (hw.parked x req hparked) _ _)

theorem onAbort (w : World σ) (source : AbortSource) :
    Local cfg source.rid w (w.onAbort cfg source) := by
  have htell : Local cfg source.rid w
      ((w.setPending source.rid none).tell cfg source.rid (.deregister source.rid)) :=
    (setPending w _ (by simp)).trans (tell _ (by intro r; simp [DetokMsg.mail, eq_comm]))
  unfold World.onAbort
  dsimp only
  split
  · exact htell.trans (push _ rfl)
  · exact htell

end Local

theorem onAbort_self (w : World σ) (source : AbortSource) (hroom : w.hasRoom cfg = true) :
    (w.onAbort cfg source).view cfg source.rid
      = { w.view cfg source.rid with
          parked := none
          mail := (w.view cfg source.rid).mail ++ [.deregister]
          pushed := (w.view cfg source.rid).pushed ++ [.abortReq source.rid]
          unread := (w.view cfg source.rid).unread ++ [.abortReq source.rid] } := by
  have hroom' : ((w.setPending source.rid none).tell cfg source.rid
      (.deregister source.rid)).hasRoom cfg = true := hroom
  simp only [onAbort, hroom', if_true]
  rw [view_push, tell_self, view_setPending]
  simp [DetokMsg.mail, SchedulerRequest.rid]

/-! ## The dispatcher -/

theorem sendBucket_view (evs : List ChunkEvent) (s : ℕ) : (sendBucket cfg evs w s).view cfg r
      = { w.view cfg r with
          mail := (w.view cfg r).mail ++
            if s = cfg.shard r then (evs.filter fun ev => ev.rid = r).map .chunk else [] } := by
  have hmail : s = cfg.shard r →
      (evs.filter fun ev => cfg.shard ev.rid = s).filter (fun ev => ev.rid = r)
        = evs.filter fun ev => ev.rid = r := by
    rintro rfl
    rw [filter_filter]
    refine filter_congr fun ev _ => ?_
    by_cases hr : ev.rid = r <;> simp [hr]
  unfold sendBucket
  dsimp only
  split
  · rename_i hempty
    split_ifs with hs
    · rw [← hmail hs, isEmpty_iff.mp hempty]
      simp
    · simp
  · rw [view_enqueue]
    split_ifs with hs
    · simp only [DetokMsg.mail, hmail hs]
    · rfl

theorem sendBuckets_view (w : World σ) (evs : List ChunkEvent) {l : List ℕ} (hl : l.Nodup) (r : Rid) :
    (l.foldl (sendBucket cfg evs) w).view cfg r
      = { w.view cfg r with
          mail := (w.view cfg r).mail ++
            if cfg.shard r ∈ l then (evs.filter fun ev => ev.rid = r).map .chunk else [] } := by
  induction l generalizing w with
  | nil => simp
  | cons s l ih =>
    rw [foldl_cons, ih _ (nodup_cons.mp hl).2, sendBucket_view]
    by_cases hs : s = cfg.shard r
    · have hnot : cfg.shard r ∉ l := hs ▸ (nodup_cons.mp hl).1
      simp [hs, hnot]
    · simp [hs, Ne.symm hs]

theorem dispatch_view (frame : OutputFrame) : (w.dispatch cfg frame).view cfg r
      = { w.view cfg r with mail := (w.view cfg r).mail ++ frame.mail r } := by
  cases frame with
  | batch evs =>
    have hmem : cfg.shard r ∈ range cfg.numShards := mem_range.mpr (Nat.mod_lt _ cfg.numShards_pos)
    rw [dispatch, sendBuckets_view w evs nodup_range, if_pos hmem]
    rfl
  | rejected rids =>
    simp only [dispatch]
    induction rids generalizing w with
    | nil => simp [mail]
    | cons x rids ih =>
      rw [foldl_cons, ih, World.tell, view_enqueue]
      by_cases hx : x = r
      · subst hx
        simp [mail, DetokMsg.mail]
      · simp [mail, DetokMsg.mail, hx]
  | unreadable => simp [dispatch, mail]
  | result x payload | error x message =>
    rw [dispatch, World.tell, view_enqueue]
    by_cases hx : x = r
    · subst hx
      simp [mail, DetokMsg.mail]
    · simp [mail, DetokMsg.mail, hx]

end SparkInfer.Server
