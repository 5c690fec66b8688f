import SparkInfer.Server.View

/-!
# What the intake makes of a request

`drive` takes a request from state to state.  A request that was registered with its
shard ends up refused, on the ring, with a worker pool, or with the shard itself; one that
comes back from a pool is refused or goes onto the ring.
-/

namespace SparkInfer.Server

open World

variable {σ : Type} {cfg : Config σ}

/-- Something the scheduler has to answer. -/
def SchedulerRequest.isFrame : SchedulerRequest → Bool
  | .abortReq _ => false
  | _ => true

inductive Finishes (cfg : Config σ) (r : Rid) (v : View σ) : View σ → Prop
  | refused (e : Error) : Finishes cfg r v { v with
      client := v.client.map fun c => (c.trySend cfg (.error e)).1
      mail := v.mail ++ [.deregister] }
  | queued {msg : SchedulerRequest} (hr : msg.rid = r) (hframe : msg.isFrame = true) :
    Finishes cfg r v { v with pushed := v.pushed ++ [msg], unread := v.unread ++ [msg] }

def RequestKind.isGenerate : RequestKind → Bool
  | .generate _ => true
  | _ => false

inductive Goes (cfg : Config σ) (r : Rid) (kind : RequestKind) (v : View σ) : View σ → Prop
  | finishes {v' : View σ} (h : Finishes cfg r v v') : Goes cfg r kind v v'
  | tokenizes {req : Request} (hr : req.rid = r) (hstate : req.state = .tokenizing)
      (hkind : req.kind.isGenerate = true) :
    Goes cfg r kind v { v with tokenizing := v.tokenizing ++ [req] }
  | parks {req : Request} (hr : req.rid = r) (hstate : req.state = .encoding)
      (hkind : req.kind.isGenerate = true) :
    Goes cfg r kind v { v with encoding := v.encoding ++ [r], parked := some req }
  | decodes {tokenIds : List ℤ} (hkind : kind.guarded = false) :
    Goes cfg r kind v { v with mail := v.mail ++ [.decode tokenIds] }

variable {w : World σ} {req : Request} {r : Rid} {mmFull : Bool}

/-! ## Other requests -/

namespace Local

variable {x : Rid} (w : World σ)

section

variable (hx : req.rid = x)
include hx

theorem registerDetok : Local cfg x w (w.registerDetok cfg req) := by
  subst hx
  exact tell w (by intro r; simp [DetokMsg.mail, eq_comm])

theorem pushToRing : Local cfg x w (w.pushToRing cfg req) := by
  unfold World.pushToRing
  dsimp only
  split
  · exact fail w hx _ _
  · split
    · exact push w hx
    · exact fail w hx _ _

theorem pushControlToRing : Local cfg x w (w.pushControlToRing cfg req) := by
  unfold World.pushControlToRing
  split
  · exact push w hx
  · exact fail w hx _ _

theorem pushDetokenizeToShard : Local cfg x w (w.pushDetokenizeToShard cfg req) := by
  unfold World.pushDetokenizeToShard
  split
  · subst hx
    exact tell w (by intro r; simp [DetokMsg.mail, eq_comm])
  · exact fail w hx _ _

theorem tokenizing : Local cfg x w { w with tokenizing := w.tokenizing ++ [req] } := by
  refine of_shards rfl rfl fun r hr => ?_
  have hne : req.rid ≠ r := fun h => hr (h.symm.trans hx)
  simp [view, pushed, hne]

end

theorem encoding (x : Rid) : Local cfg x w { w with encoding := w.encoding ++ [x] } := by
  refine of_shards rfl rfl fun r hr => ?_
  simp [view, pushed, Ne.symm hr]

theorem driveLoop (fuel : ℕ) (w : World σ) (registered : Bool) (hx : req.rid = x) :
    Local cfg x w (driveLoop cfg mmFull fuel w req registered) := by
  induction fuel generalizing w req registered with
  | zero => exact refl w
  | succ fuel ih =>
    unfold driveLoop
    split
    · -- `Received`
      simp only [validate]
      cases validateKind req cfg.limits with
      | error e => exact ih _ _ hx
      | ok _ => exact (registerDetok w hx).trans (ih _ _ hx)
    · split <;> exact ih _ _ hx
    · split
      · split <;> exact ih _ _ hx
      · exact fail w hx _ _
    · split
      · dsimp only
        split
        · exact fail w hx _ _
        · subst hx
          exact (encoding w req.rid).trans (setPending _ req.rid (by simp))
      · exact fail w hx _ _
    · exact tokenizing w hx
    · split
      · split <;> exact ih _ _ hx
      · exact ih _ _ hx
    · split
      · exact pushToRing w hx
      · exact pushControlToRing w hx
      · exact pushDetokenizeToShard w hx
    · exact fail w hx _ _
    all_goals exact fail w hx _ _

end Local

/-! ## The request itself -/

theorem finishes_fail (w : World σ) (hr : req.rid = r) (e : Error) :
    Finishes cfg r (w.view cfg r) ((w.fail cfg req e true).view cfg r) := by
  rw [fail_self cfg w hr]
  exact .refused e

theorem finishes_push {msg : SchedulerRequest} (hr : msg.rid = r) (hframe : msg.isFrame = true) :
    Finishes cfg r (w.view cfg r) ((w.push msg).view cfg r) := by
  rw [view_push, if_pos hr]
  exact .queued hr hframe

theorem finishes_pushToRing (hr : req.rid = r) :
    Finishes cfg r (w.view cfg r) ((w.pushToRing cfg req).view cfg r) := by
  unfold pushToRing
  dsimp only
  split
  · exact finishes_fail w hr _
  · split
    · exact finishes_push hr rfl
    · exact finishes_fail w hr _

theorem finishes_pushControlToRing (hr : req.rid = r) :
    Finishes cfg r (w.view cfg r) ((w.pushControlToRing cfg req).view cfg r) := by
  unfold pushControlToRing
  split
  · exact finishes_push hr rfl
  · exact finishes_fail w hr _

/-- What a registered request sees after some rounds of the loop. -/
def driven (cfg : Config σ) (mmFull : Bool) (fuel : ℕ) (w : World σ) (req : Request) : View σ :=
  (driveLoop cfg mmFull fuel w req true).view cfg req.rid

section Rounds

variable {rid : Rid} {len : ℕ} {kind : RequestKind} {g : GenerateRequest} (fuel : ℕ) (w : World σ)

theorem finishes_failed (e : Error) :
    Finishes cfg rid (w.view cfg rid) (driven cfg mmFull (fuel + 1) w ⟨rid, len, .failed e, kind⟩) :=
  @finishes_fail _ cfg ⟨rid, len, .failed e, kind⟩ rid w rfl e

theorem finishes_queued : Finishes cfg rid (w.view cfg rid)
    (driven cfg mmFull (fuel + 1) w ⟨rid, len, .queued, .generate g⟩) :=
  finishes_pushToRing rfl

theorem goes_queued (mmFull : Bool) (fuel : ℕ) (w : World σ) : Goes cfg rid kind (w.view cfg rid)
    (driven cfg mmFull (fuel + 1) w ⟨rid, len, .queued, kind⟩) := by
  cases kind with
  | generate g => exact .finishes (finishes_queued fuel w)
  | control => exact .finishes (finishes_pushControlToRing rfl)
  | detokenize tokenIds =>
    change Goes cfg rid _ _ ((w.tell cfg rid (.decode rid tokenIds)).view cfg rid)
    rw [tell_self]
    simpa [DetokMsg.mail] using Goes.decodes rfl

theorem finishes_preSend : Finishes cfg rid (w.view cfg rid)
    (driven cfg mmFull (fuel + 2) w ⟨rid, len, .preSendValidating, .generate g⟩) := by
  rw [driven, driveLoop]
  dsimp only
  cases checkTotalTokens g cfg.limits with
  | error e => exact finishes_failed fuel w e
  | ok g => exact finishes_queued fuel w

theorem goes_preSend (mmFull : Bool) (fuel : ℕ) (w : World σ) : Goes cfg rid kind (w.view cfg rid)
    (driven cfg mmFull (fuel + 2) w ⟨rid, len, .preSendValidating, kind⟩) := by
  cases kind with
  | generate g => exact .finishes (finishes_preSend fuel w)
  | control | detokenize tokenIds => exact goes_queued mmFull fuel w

theorem goes_encoding : Goes cfg rid kind (w.view cfg rid)
    (driven cfg mmFull (fuel + 1) w ⟨rid, len, .encoding, .generate g⟩) := by
  rw [driven, driveLoop]
  dsimp only
  cases mmFull with
  | true =>
    refine .finishes (finishes_fail w ?_ .queueFull)
    rfl
  | false =>
    have hview : ({ w with encoding := w.encoding ++ [rid] }.setPending rid
        (some ⟨rid, len, .encoding, .generate g.takeMmWork⟩)).view cfg rid
        = { w.view cfg rid with
            encoding := (w.view cfg rid).encoding ++ [rid]
            parked := some ⟨rid, len, .encoding, .generate g.takeMmWork⟩ } := by
      rw [view_setPending]
      simp [view, pushed]
    rw [if_neg Bool.false_ne_true, hview]
    exact .parks rfl rfl rfl

theorem goes_tokenizing : Goes cfg rid kind (w.view cfg rid)
    (driven cfg mmFull (fuel + 1) w ⟨rid, len, .tokenizing, .generate g⟩) := by
  have hview : driven cfg mmFull (fuel + 1) w ⟨rid, len, .tokenizing, .generate g⟩
      = { w.view cfg rid with
          tokenizing := (w.view cfg rid).tokenizing ++ [⟨rid, len, .tokenizing, .generate g⟩] } := by
    simp [driven, driveLoop, view, pushed]
  rw [hview]
  exact .tokenizes rfl rfl rfl

theorem goes_normalizing : Goes cfg rid (.generate g) (w.view cfg rid)
    (driven cfg mmFull (fuel + 3) w ⟨rid, len, .normalizing, .generate g⟩) := by
  rw [driven, driveLoop]
  dsimp only
  split
  · exact .finishes (finishes_failed (fuel + 1) w _)
  rename_i g' outcome _
  cases outcome with
  | hasMultimodal => exact goes_encoding (fuel + 1) w
  | needsTokenize => exact goes_tokenizing (fuel + 1) w
  | alreadyTokenized => exact .finishes (finishes_preSend fuel w)

theorem goes_validating : Goes cfg rid kind (w.view cfg rid)
    (driven cfg mmFull (fuel + 4) w ⟨rid, len, .validating, kind⟩) := by
  cases kind with
  | generate g => exact goes_normalizing fuel w
  | control | detokenize tokenIds => exact goes_preSend mmFull (fuel + 1) w

end Rounds

theorem registerDetok_self (w : World σ) (hr : req.rid = r) : (w.registerDetok cfg req).view cfg r
      = { w.view cfg r with
          mail := (w.view cfg r).mail ++ [.register req.kind.noStopTrim] } := by
  subst hr
  rw [registerDetok, tell_self]
  simp only [DetokMsg.mail, if_true]

/-- A new request: it is refused before its shard knows of it, or it is registered. -/
theorem drive_received (w : World σ) (hr : req.rid = r) (hstate : req.state = .received) :
    (∃ e, (w.drive cfg mmFull req).view cfg r
      = { w.view cfg r with
          client := (w.view cfg r).client.map fun c => (c.trySend cfg (.error e)).1 }) ∨
    Goes cfg r req.kind
      { w.view cfg r with mail := (w.view cfg r).mail ++ [.register req.kind.noStopTrim] }
      ((w.drive cfg mmFull req).view cfg r) := by
  obtain ⟨rid, len, state, kind⟩ := req
  obtain rfl : state = .received := hstate
  obtain rfl : rid = r := hr
  change (∃ e, (driveLoop cfg mmFull 7 w _ false).view cfg rid = _) ∨
    Goes _ _ _ _ ((driveLoop cfg mmFull 7 w _ false).view cfg rid)
  rw [driveLoop]
  simp only [validate]
  cases validateKind ⟨rid, len, .received, kind⟩ cfg.limits with
  | error e =>
    refine .inl ⟨e, ?_⟩
    change (w.fail cfg ⟨rid, len, .failed e, kind⟩ e false).view cfg rid = _
    rw [fail_self cfg w rfl]
    simp
  | ok _ =>
    refine .inr ?_
    rw [← @registerDetok_self _ cfg ⟨rid, len, .validating, kind⟩ rid w rfl]
    exact goes_validating 2 _

theorem drive_returned (w : World σ) (hr : req.rid = r) (hkind : req.kind.isGenerate = true)
    (hstate : req.state = .preSendValidating ∨ ∃ e, req.state = .failed e) :
    Finishes cfg r (w.view cfg r) ((w.drive cfg mmFull req).view cfg r) := by
  obtain ⟨rid, len, state, kind⟩ := req
  obtain rfl : rid = r := hr
  rcases hstate with hstate | ⟨e, hstate⟩ <;> cases hstate
  · cases kind with
    | generate g => exact finishes_preSend 5 w
    | control | detokenize tokenIds => cases hkind
  · exact finishes_failed 6 w e

end SparkInfer.Server
