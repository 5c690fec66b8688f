import SparkInfer.Server.System

/-!
# The server as one request sees it

Rids are unique, so the requests meet only in the queues, and every queue keeps the order
of one request's messages.  The view of a request is the part of each queue and table that
is about it.  A function that works for one request leaves every other view.
-/

namespace SparkInfer.Server

open Function World List

variable {σ : Type}
variable {w : World σ}

/-- A detokenizer message without its rid. -/
inductive Mail
  | register (noStopTrim : Bool)
  | chunk (ev : ChunkEvent)
  | decode (tokenIds : List ℤ)
  | result (payload : Bytes)
  | fail (message : String)
  | deregister

def DetokMsg.mail (r : Rid) : DetokMsg → List Mail
  | .register rid noStopTrim => if rid = r then [.register noStopTrim] else []
  | .chunks evs => (evs.filter fun ev => ev.rid = r).map .chunk
  | .decode rid tokenIds => if rid = r then [.decode tokenIds] else []
  | .result rid payload => if rid = r then [.result payload] else []
  | .fail rid message => if rid = r then [.fail message] else []
  | .deregister rid => if rid = r then [.deregister] else []

/-- What the dispatcher makes of a frame for request `r`. -/
def OutputFrame.mail (r : Rid) : OutputFrame → List Mail
  | .batch evs => (evs.filter fun ev => ev.rid = r).map .chunk
  | .rejected rids => (rids.filter fun rid => rid = r).map fun _ =>
    .fail "internal error: malformed scheduler output frame"
  | .unreadable => []
  | .result rid payload => if rid = r then [.result payload] else []
  | .error rid message => if rid = r then [.fail message] else []

def TmEvent.rid : TmEvent → Rid
  | .intake req | .tokenized req => req.rid
  | .mmEncoded r _ | .mmFailed r _ => r

structure View (σ : Type) where
  client : Option Client
  events : List TmEvent
  lane : List AbortSource
  tokenizing : List Request
  encoding : List Rid
  parked : Option Request
  pushed : List SchedulerRequest
  /-- Pushed and not yet read by the scheduler. -/
  unread : List SchedulerRequest
  mail : List Mail
  entry : Option (DetokState σ)
  /-- Answers of the scheduler that the dispatcher has not handled. -/
  letters : List Mail
  owed : Bool
  aborted : Bool
  skipped : Bool

variable (cfg : Config σ) {req : Request} {msg : DetokMsg}

def World.view (w : World σ) (r : Rid) : View σ where
  client := w.clients r
  events := w.inbox.filter fun event => event.rid = r
  lane := w.abortLane.filter fun source => source.rid = r
  tokenizing := w.tokenizing.filter fun req => req.rid = r
  encoding := w.encoding.filter fun x => x = r
  parked := w.pendingMm r
  pushed := w.pushed.filter fun msg => msg.rid = r
  unread := w.ring.filter fun msg => msg.rid = r
  mail := (w.shards (cfg.shard r)).queue.flatMap fun msg => msg.mail r
  entry := (w.shards (cfg.shard r)).table r
  letters := w.outputs.flatMap fun frame => frame.mail r
  owed := w.owed.contains r
  aborted := w.aborted.contains r
  skipped := w.skipped.contains r

namespace World

variable (w : World σ) {r x : Rid}

/-! ## Small updates -/

theorem view_setClient (c : Client) : (w.setClient x c).view cfg r
      = { w.view cfg r with client := if x = r then some c else (w.view cfg r).client } := by
  simp [view, setClient, pushed, update_apply, eq_comm]

theorem view_sendAbort (source : AbortSource) : (w.sendAbort source).view cfg r
      = { w.view cfg r with
          lane := (w.view cfg r).lane ++ if source.rid = r then [source] else [] } := by
  by_cases h : source.rid = r <;> simp [view, sendAbort, pushed, h]

theorem view_enqueue (s : ℕ) (msg : DetokMsg) : (w.enqueue s msg).view cfg r
      = { w.view cfg r with
          mail := (w.view cfg r).mail ++ if s = cfg.shard r then msg.mail r else [] } := by
  by_cases h : s = cfg.shard r
  · subst h
    simp [view, enqueue, setShard, pushed]
  · simp [view, enqueue, setShard, pushed, h, update_of_ne (Ne.symm h)]

theorem view_push (msg : SchedulerRequest) : (w.push msg).view cfg r
      = { w.view cfg r with
          pushed := (w.view cfg r).pushed ++ if msg.rid = r then [msg] else []
          unread := (w.view cfg r).unread ++ if msg.rid = r then [msg] else [] } := by
  by_cases h : msg.rid = r <;> simp [view, push, pushed, h]

theorem view_setPending (req : Option Request) : (w.setPending x req).view cfg r
      = { w.view cfg r with parked := if x = r then req else (w.view cfg r).parked } := by
  simp [view, setPending, pushed, update_apply, eq_comm]

theorem view_setEntry (s : ℕ) (st : Option (DetokState σ)) : (w.setEntry s x st).view cfg r
      = { w.view cfg r with
          entry := if s = cfg.shard r ∧ x = r then st else (w.view cfg r).entry } := by
  by_cases h : s = cfg.shard r
  · subst h
    simp [view, setEntry, setShard, pushed, update_apply, eq_comm]
  · simp [view, setEntry, setShard, pushed, h, update_of_ne (Ne.symm h)]

theorem view_trySend (item : ResponseItem) : (w.trySend cfg x item).1.view cfg r
      = { w.view cfg r with
          client := if x = r then (w.clients x).map fun c => (c.trySend cfg item).1
            else (w.view cfg r).client } := by
  unfold trySend
  cases hc : w.clients x with
  | none =>
    by_cases h : x = r
    · subst h
      simp [view, hc]
    · simp [h]
  | some c =>
    rw [view_setClient]
    simp

theorem trySend_self (item : ResponseItem) : (w.trySend cfg r item).1.view cfg r
      = { w.view cfg r with
          client := (w.view cfg r).client.map fun c => (c.trySend cfg item).1 } := by
  rw [view_trySend, if_pos rfl]
  rfl

theorem tell_self (msg : DetokMsg) : (w.tell cfg r msg).view cfg r
      = { w.view cfg r with mail := (w.view cfg r).mail ++ msg.mail r } := by
  rw [tell, view_enqueue, if_pos rfl]

theorem fail_self (hr : req.rid = r) (e : Error) (registered : Bool) :
    (w.fail cfg req e registered).view cfg r
      = { w.view cfg r with
          client := (w.view cfg r).client.map fun c => (c.trySend cfg (.error e)).1
          mail := (w.view cfg r).mail ++ if registered then [.deregister] else [] } := by
  subst hr
  cases registered with
  | false => simp [fail, trySend_self]
  | true => simp [fail, tell_self, trySend_self, DetokMsg.mail]

end World

/-! ## Work for one request -/

def DetokMsg.isFor (msg : DetokMsg) (x : Rid) : Prop := ∀ r, msg.mail r ≠ [] → r = x

/-- A shard is sent messages about its own requests only and knows only those, and a parked
request is found under its rid. -/
structure World.Routed (w : World σ) : Prop where
  mail : ∀ s, ∀ msg ∈ (w.shards s).queue, ∀ r, msg.mail r ≠ [] → cfg.shard r = s
  table : ∀ s r, ((w.shards s).table r).isSome = true → cfg.shard r = s
  parked : ∀ r req, w.pendingMm r = some req → req.rid = r

theorem World.Routed.setShard {cfg : Config σ} (hw : w.Routed cfg) {s : ℕ} {sh : Shard σ}
    (hmail : ∀ msg ∈ sh.queue, ∀ r, msg.mail r ≠ [] → cfg.shard r = s)
    (htable : ∀ r, (sh.table r).isSome = true → cfg.shard r = s) :
    (w.setShard s sh).Routed cfg := by
  refine ⟨fun s' => ?_, fun s' => ?_, hw.parked⟩
  all_goals
    simp only [World.setShard, update_apply]
    split
  · subst s'
    exact hmail
  · exact hw.mail s'
  · subst s'
    exact htable
  · exact hw.table s'

theorem World.Routed.enqueue {cfg : Config σ} (hw : w.Routed cfg) {s : ℕ}
    (hmsg : ∀ r, msg.mail r ≠ [] → cfg.shard r = s) : (w.enqueue s msg).Routed cfg := by
  refine hw.setShard (fun m hm => ?_) (hw.table s)
  rcases mem_append.mp hm with hm | hm
  · exact hw.mail s m hm
  · rwa [mem_singleton.mp hm]

/-- From `w` to `w'` something was done for request `x`. -/
structure Local (x : Rid) (w w' : World σ) : Prop where
  other : ∀ r, r ≠ x → w'.view cfg r = w.view cfg r
  routed : w.Routed cfg → w'.Routed cfg

namespace Local

variable {cfg} {x : Rid} {w' w'' : World σ}

theorem refl (w : World σ) : Local cfg x w w := ⟨fun _ _ => rfl, id⟩

theorem trans (h : Local cfg x w w') (h' : Local cfg x w' w'') : Local cfg x w w'' :=
  ⟨fun r hr => (h'.other r hr).trans (h.other r hr), fun hw => h'.routed (h.routed hw)⟩

theorem of_shards (hshards : w'.shards = w.shards) (hparked : w'.pendingMm = w.pendingMm)
    (hother : ∀ r, r ≠ x → w'.view cfg r = w.view cfg r) : Local cfg x w w' :=
  ⟨hother, fun hw => ⟨hshards ▸ hw.mail, hshards ▸ hw.table, hparked ▸ hw.parked⟩⟩

theorem setClient (w : World σ) (x : Rid) (c : Client) : Local cfg x w (w.setClient x c) := by
  refine of_shards rfl rfl fun r hr => ?_
  rw [view_setClient, if_neg (Ne.symm hr)]

theorem trySend (w : World σ) (x : Rid) (item : ResponseItem) :
    Local cfg x w (w.trySend cfg x item).1 := by
  unfold World.trySend
  cases w.clients x with
  | none => exact refl w
  | some c => exact setClient w x _

theorem sendAbort (w : World σ) {source : AbortSource} (hx : source.rid = x) :
    Local cfg x w (w.sendAbort source) := by
  refine of_shards rfl rfl fun r hr => ?_
  rw [view_sendAbort, if_neg (fun h => hr (h.symm.trans hx)), append_nil]

theorem push (w : World σ) {msg : SchedulerRequest} (hx : msg.rid = x) :
    Local cfg x w (w.push msg) := by
  refine of_shards rfl rfl fun r hr => ?_
  rw [view_push, if_neg (fun h => hr (h.symm.trans hx)), append_nil, append_nil]

theorem setPending (w : World σ) (x : Rid) {req : Option Request}
    (hreq : ∀ req' ∈ req, req'.rid = x) : Local cfg x w (w.setPending x req) := by
  refine ⟨fun r hr => ?_, fun hw => ⟨hw.mail, hw.table, fun r req' hreq' => ?_⟩⟩
  · rw [World.view_setPending, if_neg (Ne.symm hr)]
  simp only [World.setPending, update_apply] at hreq'
  split at hreq'
  · subst r
    exact hreq req' hreq'
  · exact hw.parked r req' hreq'

theorem setEntry (w : World σ) (s : ℕ) (x : Rid) {st : Option (DetokState σ)}
    (hst : w.Routed cfg → st.isSome = true → cfg.shard x = s) :
    Local cfg x w (w.setEntry s x st) := by
  refine ⟨fun r hr => ?_, fun hw => hw.setShard (hw.mail s) fun r htable => ?_⟩
  · rw [view_setEntry, if_neg (fun h => hr h.2.symm)]
  simp only [update_apply] at htable
  split at htable
  · subst r
    exact hst hw htable
  · exact hw.table s r htable

theorem removeEntry (w : World σ) (s : ℕ) (x : Rid) : Local cfg x w (w.setEntry s x none) :=
  setEntry w s x fun _ h => by cases h

theorem tell (w : World σ) (hx : msg.isFor x) : Local cfg x w (w.tell cfg x msg) := by
  refine ⟨fun r hr => ?_, fun hw => hw.enqueue fun r hmail => by rw [hx r hmail]⟩
  have hnone : msg.mail r = [] := by
    by_contra hne
    exact hr (hx r hne)
  rw [World.tell, World.view_enqueue, hnone, ite_self, append_nil]

theorem fail (w : World σ) (hx : req.rid = x) (e : Error) (registered : Bool) :
    Local cfg x w (w.fail cfg req e registered) := by
  subst hx
  have hsend : Local cfg req.rid w (w.trySend cfg req.rid (.error e)).1 := trySend w req.rid _
  cases registered with
  | false => exact hsend
  | true => exact hsend.trans (tell _ (by intro r; simp [DetokMsg.mail, eq_comm]))

end Local

end SparkInfer.Server
