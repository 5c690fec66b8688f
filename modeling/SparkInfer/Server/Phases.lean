import SparkInfer.Server.Steps

/-!
# The phases of a request

A request waits in the inbox, is with a worker pool, is on the ring, is with its shard, or
was refused.  In every phase it is known which messages about it may still be under way;
the careful moves of one request lead from phase to phase.
-/

namespace SparkInfer.Server

open List Mail

variable {σ : Type} {cfg : Config σ} {r : Rid} {v v' : View σ}
variable {req : Request}
variable {x : Mail} {ys : List Mail} {c' c : Client} {event : TmEvent}

def Mail.isRegister : Mail → Bool
  | .register _ => true
  | _ => false

/-- The request has an entry in its shard, or is about to get it. -/
def View.Open (v : View σ) : Prop :=
  (v.entry.isSome = true ∧ ∀ x ∈ v.mail, x.isRegister = false) ∨
    v.entry = none ∧ ∃ b xs, v.mail = .register b :: xs ∧ ∀ x ∈ xs, x.isRegister = false

/-- The request has no entry and will not get one. -/
def View.Shut (v : View σ) : Prop := v.entry = none ∧ ∀ x ∈ v.mail, x.isRegister = false

theorem Mail.not_register_of_answer (h : x.isAnswer = true) : x.isRegister = false := by
  cases x <;> first | rfl | cases h

theorem Mail.not_answer_of_register (h : x.isRegister = true) : x.isAnswer = false := by
  cases x <;> first | rfl | cases h

theorem View.Open.not_shut (h : v.Open) : ¬ v.Shut := by
  rintro ⟨hentry, hmail⟩
  rcases h with ⟨hsome, -⟩ | ⟨-, b, xs, hxs, -⟩
  · simp [hentry] at hsome
  · exact absurd (hmail (.register b) (hxs ▸ mem_cons_self)) (by simp [isRegister])

theorem View.Open.append (h : v.Open) (hys : ∀ x ∈ ys, x.isRegister = false)
    (hentry : v'.entry = v.entry) (hmail : v'.mail = v.mail ++ ys) : v'.Open := by
  rcases h with ⟨hsome, hnone⟩ | ⟨hnone, b, xs, hxs, hrest⟩
  · exact .inl ⟨hentry ▸ hsome, hmail ▸ forall_mem_append.mpr ⟨hnone, hys⟩⟩
  · exact .inr ⟨hentry ▸ hnone, b, xs ++ ys, by rw [hmail, hxs, cons_append],
      forall_mem_append.mpr ⟨hrest, hys⟩⟩

theorem View.Shut.append (h : v.Shut) (hys : ∀ x ∈ ys, x.isRegister = false)
    (hentry : v'.entry = v.entry) (hmail : v'.mail = v.mail ++ ys) : v'.Shut :=
  ⟨hentry ▸ h.1, hmail ▸ forall_mem_append.mpr ⟨h.2, hys⟩⟩

structure View.Idle (v : View σ) : Prop where
  events : v.events = []
  tokenizing : v.tokenizing = []
  encoding : v.encoding = []
  parked : v.parked = none

structure View.Unsent (v : View σ) : Prop where
  pushed : v.pushed = []
  unread : v.unread = []
  letters : v.letters = []
  owed : v.owed = false
  aborted : v.aborted = false
  skipped : v.skipped = false

/-- The handler of a request that nobody has answered. -/
structure Waiting (r : Rid) (v : View σ) (c : Client) : Prop where
  client : v.client = some c
  sent : c.sent = []
  abandoned : c.abandoned = true → .guard r ∈ v.lane
  kept : c.abandoned = false → v.lane = []

structure Fresh (v : View σ) : Prop extends v.Idle, v.Unsent where
  client : v.client = none
  lane : v.lane = []
  mail : v.mail = []
  entry : v.entry = none

structure Received (r : Rid) (v : View σ) (c : Client) (req : Request) : Prop
    extends Waiting r v c, v.Unsent where
  events : v.events = [.intake req]
  tokenizing : v.tokenizing = []
  encoding : v.encoding = []
  parked : v.parked = none
  state : req.state = .received
  mail : v.mail = []
  entry : v.entry = none
  unguarded : req.kind.guarded = false → c.armed = false ∧ c.abandoned = false

/-- At a tokenizer worker, or on the way back. -/
structure Inside (r : Rid) (v : View σ) (c : Client) (req : Request) : Prop
    extends Waiting r v c, v.Unsent where
  place : (v.events = [] ∧ v.tokenizing = [req] ∧ req.state = .tokenizing) ∨
    (v.events = [.tokenized req] ∧ v.tokenizing = [] ∧
      (req.state = .preSendValidating ∨ ∃ e, req.state = .failed e))
  encoding : v.encoding = []
  parked : v.parked = none
  kind : req.kind.isGenerate = true
  isOpen : v.Open
  mail : ∀ x ∈ v.mail, x.isRegister = true

/-- Parked while a multimodal worker has its media. -/
structure Parked (r : Rid) (v : View σ) (c : Client) (req : Request) : Prop
    extends Waiting r v c, v.Unsent where
  place : (v.events = [] ∧ v.encoding = [r]) ∨
    ∃ event, v.events = [event] ∧ event.isMm = true ∧ v.encoding = []
  tokenizing : v.tokenizing = []
  parked : v.parked = some req
  rid : req.rid = r
  state : req.state = .encoding
  kind : req.kind.isGenerate = true
  isOpen : v.Open
  mail : ∀ x ∈ v.mail, x.isRegister = true

/-- On the ring or beyond: the scheduler answers. -/
structure Pushed (r : Rid) (v : View σ) (c : Client) (frame : SchedulerRequest)
    (rest : List SchedulerRequest) : Prop extends v.Idle where
  client : v.client = some c
  pushed : v.pushed = frame :: rest
  isFrame : frame.isFrame = true
  aborts : ∀ msg ∈ rest, msg = .abortReq r
  unread : v.unread <:+ v.pushed
  known : v.Open ∨ v.Shut
  answers : ∀ x ∈ v.letters, x.isAnswer = true
  /-- The shard forgets the request when it sends the last item. -/
  terminal : (∃ item ∈ c.sent, item.isTerminal = true) → v.Shut
  last : ∀ xs item ys, c.sent = xs ++ item :: ys → item.isTerminal = true → ys = []
  abandoned : c.abandoned = true → .guard r ∈ v.lane ∨ rest ≠ []
  /-- An abort comes with the notice to the shard. -/
  shut : rest ≠ [] → v.Shut ∨ .deregister ∈ v.mail
  aborted : v.aborted = true → rest ≠ []
  owing : v.Open → frame ∈ v.unread ∨ v.owed = true ∨ v.skipped = true ∨
    ∃ x ∈ v.mail ++ v.letters, x.ends = true
  connected : c.closed = false → c.abandoned = false →
    (∀ item ∈ c.sent, item.isTerminal = false) → v.Open ∧ .deregister ∉ v.mail ∧ v.lane = []

/-- A service call, answered by the shard. -/
structure Handed (v : View σ) (c : Client) : Prop extends v.Idle, v.Unsent where
  client : v.client = some c
  armed : c.armed = false
  abandoned : c.abandoned = false
  lane : v.lane = []
  place : (c.sent = [] ∧ v.Open ∧ ∃ ids, v.mail = [.decode ids] ∨ ∃ b, v.mail = [.register b, .decode ids]) ∨
    v.mail = [] ∧ v.entry = none ∧
      ((∃ item, c.sent = [item] ∧ item.isTerminal = true) ∨ c.sent = [] ∧ c.closed = true)

/-- Refused, or given up while it was parked. -/
structure Over (r : Rid) (v : View σ) (c : Client) : Prop where
  client : v.client = some c
  events : ∀ event ∈ v.events, event.isMm = true
  tokenizing : v.tokenizing = []
  parked : v.parked = none
  pushed : ∀ msg ∈ v.pushed, msg = .abortReq r
  unread : ∀ msg ∈ v.unread, msg = .abortReq r
  letters : v.letters = []
  owed : v.owed = false
  skipped : v.skipped = false
  known : v.Open ∨ v.Shut
  mail : ∀ x ∈ v.mail, x.isAnswer = false
  closing : v.Open → .deregister ∈ v.mail
  sent : c.sent = [] ∨ ∃ e, c.sent = [.error e]
  connected : c.closed = false → c.abandoned = false → ∃ e, c.sent = [.error e]

inductive Phase (r : Rid) (v : View σ) : Prop
  | fresh (h : Fresh v)
  | received {c : Client} {req : Request} (h : Received r v c req)
  | inside {c : Client} {req : Request} (h : Inside r v c req)
  | parked {c : Client} {req : Request} (h : Parked r v c req)
  | pushed {c : Client} {frame : SchedulerRequest} {rest : List SchedulerRequest}
      (h : Pushed r v c frame rest)
  | handed {c : Client} (h : Handed v c)
  | ended {c : Client} (h : Over r v c)

/-! ## Handlers -/

/-- The handler's side after something that neither sends nor gives up. -/
structure Client.Follows (c c' : Client) : Prop where
  sent : c'.sent = c.sent
  abandoned : c'.abandoned = c.abandoned
  closed : c'.closed = false → c.closed = false
  armed : c.armed = false → c'.armed = false

theorem Waiting.follows (h : Waiting r v c) (hc : c.Follows c') :
    Waiting r { v with client := some c' } c' where
  client := rfl
  sent := hc.sent.trans h.sent
  abandoned := hc.abandoned ▸ h.abandoned
  kept := hc.abandoned ▸ h.kept

section

variable (h : Phase r v)
include h

theorem Phase.follows (hclient : v.client = some c) (hc : c.Follows c') :
    Phase r { v with client := some c' } := by
  have hsame : ∀ {c₀ : Client}, v.client = some c₀ → c₀ = c :=
    fun h₀ => Option.some.inj (h₀.symm.trans hclient)
  cases h with
  | fresh h => exact absurd hclient (by simp [h.client])
  | received h =>
    obtain rfl := hsame h.client
    exact .received { h with
      toWaiting := h.toWaiting.follows hc
      unguarded := fun hk => ⟨hc.armed (h.unguarded hk).1, hc.abandoned.trans (h.unguarded hk).2⟩ }
  | inside h =>
    obtain rfl := hsame h.client
    exact .inside { h with toWaiting := h.toWaiting.follows hc }
  | parked h =>
    obtain rfl := hsame h.client
    exact .parked { h with toWaiting := h.toWaiting.follows hc }
  | pushed h =>
    obtain rfl := hsame h.client
    exact .pushed { h with
      client := rfl
      terminal := hc.sent ▸ h.terminal
      last := hc.sent ▸ h.last
      abandoned := hc.abandoned ▸ h.abandoned
      connected := fun hclosed habandoned hsent =>
        h.connected (hc.closed hclosed) (hc.abandoned ▸ habandoned) (hc.sent ▸ hsent) }
  | handed h =>
    obtain rfl := hsame h.client
    refine .handed { h with
      client := rfl
      armed := hc.armed h.armed
      abandoned := hc.abandoned.trans h.abandoned
      place := ?_ }
    rcases h.place with ⟨hsent, hrest⟩ | ⟨hmail, hentry, hsent⟩
    · exact .inl ⟨hc.sent.trans hsent, hrest⟩
    refine .inr ⟨hmail, hentry, ?_⟩
    rw [hc.sent]
    refine hsent.imp id fun h => ⟨h.1, ?_⟩
    by_contra hopen
    exact absurd (hc.closed (by simpa using hopen)) (by simp [h.2])
  | ended h =>
    obtain rfl := hsame h.client
    exact .ended { h with
      client := rfl
      sent := hc.sent ▸ h.sent
      connected := fun hclosed habandoned =>
        hc.sent ▸ h.connected (hc.closed hclosed) (hc.abandoned ▸ habandoned) }

omit h in
theorem Waiting.dropGuard (h : Waiting r v c) : Waiting r { v with
      client := some { c with armed := false, abandoned := true }
      lane := v.lane ++ [.guard r] } { c with armed := false, abandoned := true } where
  client := rfl
  sent := h.sent
  abandoned _ := by simp
  kept hkept := by cases hkept

theorem Phase.dropGuard (hclient : v.client = some c) (harmed : c.armed = true) : Phase r { v with
      client := some { c with armed := false, abandoned := true }
      lane := v.lane ++ [.guard r] } := by
  have hsame : ∀ {c₀ : Client}, v.client = some c₀ → c₀ = c :=
    fun h₀ => Option.some.inj (h₀.symm.trans hclient)
  cases h with
  | fresh h => exact absurd hclient (by simp [h.client])
  | received h =>
    obtain rfl := hsame h.client
    exact .received { h with
      toWaiting := h.toWaiting.dropGuard
      unguarded := fun hk => absurd harmed (by simp [(h.unguarded hk).1]) }
  | inside h =>
    obtain rfl := hsame h.client
    exact .inside { h with toWaiting := h.toWaiting.dropGuard }
  | parked h =>
    obtain rfl := hsame h.client
    exact .parked { h with toWaiting := h.toWaiting.dropGuard }
  | pushed h =>
    obtain rfl := hsame h.client
    exact .pushed { h with
      client := rfl
      abandoned := fun _ => .inl (by simp)
      connected := fun _ habandoned => by cases habandoned }
  | handed h =>
    obtain rfl := hsame h.client
    exact absurd harmed (by simp [h.armed])
  | ended h =>
    obtain rfl := hsame h.client
    exact .ended { h with
      client := rfl
      connected := fun _ habandoned => by cases habandoned }

theorem Phase.submit (hclient : v.client = none) (hstate : req.state = .received) :
    Phase r { v with client := some (.new req.kind), events := v.events ++ [.intake req] } := by
  cases h with
  | fresh h =>
    exact .received { h with
      client := rfl
      sent := rfl
      abandoned := fun h => by cases h
      kept := fun _ => h.lane
      events := by simp [h.events]
      state := hstate
      unguarded := fun hk => ⟨hk, rfl⟩ }
  | received h | inside h | parked h | pushed h | handed h | ended h =>
    exact absurd hclient (by simp [h.client])

/-! ## Worker pools -/

theorem Phase.tokenizerDone {req' : Request} {l₁ l₂ : List Request}
    (htokenizing : v.tokenizing = l₁ ++ req :: l₂)
    (hkind : req.kind.isGenerate = true → req'.kind.isGenerate = true)
    (hstate : req.state = .tokenizing →
      req'.state = .preSendValidating ∨ ∃ e, req'.state = .failed e) :
    Phase r { v with tokenizing := l₁ ++ l₂, events := v.events ++ [.tokenized req'] } := by
  have hsome : v.tokenizing ≠ [] := by simp [htokenizing]
  cases h with
  | fresh h | received h | parked h | pushed h | handed h | ended h =>
    exact absurd h.tokenizing hsome
  | inside h =>
    rcases h.place with ⟨hevents, hone, hreq⟩ | ⟨-, hnone, -⟩
    · rw [htokenizing, append_eq_singleton_iff] at hone
      obtain ⟨rfl, hone⟩ | ⟨-, hone⟩ := hone
      · obtain ⟨rfl, rfl⟩ := cons.inj hone
        exact .inside { h with
          place := .inr ⟨by simp [hevents], rfl, hstate hreq⟩
          kind := hkind h.kind }
      · cases hone
    · exact absurd hnone hsome

theorem Phase.mmDone {l₁ l₂ : List Rid} (hencoding : v.encoding = l₁ ++ r :: l₂)
    (hmm : event.isMm = true) :
    Phase r { v with encoding := l₁ ++ l₂, events := v.events ++ [event] } := by
  have hsome : v.encoding ≠ [] := by simp [hencoding]
  cases h with
  | fresh h | received h | inside h | pushed h | handed h => exact absurd h.encoding hsome
  | parked h =>
    rcases h.place with ⟨hevents, hone⟩ | ⟨-, -, -, hnone⟩
    · rw [hencoding, append_eq_singleton_iff] at hone
      obtain ⟨rfl, hone⟩ | ⟨-, hone⟩ := hone
      · obtain ⟨-, rfl⟩ := cons.inj hone
        exact .parked { h with place := .inr ⟨event, by simp [hevents], hmm, rfl⟩ }
      · cases hone
    · exact absurd hnone hsome
  | ended h =>
    exact .ended { h with events := forall_mem_append.mpr ⟨h.events, by simpa using hmm⟩ }

end

/-! ## The intake -/

theorem Client.refuse_first (hsent : c.sent = []) (e : Error) :
    ((c.trySend cfg (.error e)).1.sent = [] ∨ ∃ e', (c.trySend cfg (.error e)).1.sent = [.error e']) ∧
      ((c.trySend cfg (.error e)).1.closed = false →
        ∃ e', (c.trySend cfg (.error e)).1.sent = [.error e']) := by
  have hfull : c.full cfg = false := by
    simpa [Client.full, hsent] using Nat.pos_iff_ne_zero.mp cfg.responseBuf_pos
  unfold Client.trySend
  by_cases hclosed : c.closed = true
  · simp [hclosed, hsent]
  · simp [hclosed, hfull, hsent]

theorem Phase.finishes (h : Finishes cfg r v v') (hwait : Waiting r v c)
    (hunsent : v.Unsent) (hidle : v.Idle) (hopen : v.Open)
    (hmail : ∀ x ∈ v.mail, x.isRegister = true) : Phase r v' := by
  cases h with
  | refused e =>
    have hsink := @Client.refuse_first σ cfg c hwait.sent e
    exact .ended {
      client := by rw [hwait.client]; rfl
      events := by simp [hidle.events]
      tokenizing := hidle.tokenizing
      parked := hidle.parked
      pushed := by simp [hunsent.pushed]
      unread := by simp [hunsent.unread]
      letters := hunsent.letters
      owed := hunsent.owed
      skipped := hunsent.skipped
      known := .inl (hopen.append (by simp [isRegister]) rfl rfl)
      mail := forall_mem_append.mpr
        ⟨fun x hx => not_answer_of_register (hmail x hx), by simp [isAnswer]⟩
      closing := fun _ => by simp
      sent := hsink.1
      connected := fun hopened _ => hsink.2 hopened }
  | @queued msg hr hframe =>
    exact .pushed { hidle with
      client := hwait.client
      pushed := by rw [hunsent.pushed]; rfl
      isFrame := hframe
      aborts := by simp
      unread := by simp [hunsent.unread]
      known := .inl hopen
      answers := by simp [hunsent.letters]
      terminal := by simp [hwait.sent]
      last := by simp [hwait.sent]
      abandoned := fun h => .inl (hwait.abandoned h)
      shut := fun h => absurd rfl h
      aborted := by simp [hunsent.aborted]
      owing := fun _ => .inl (by simp)
      connected := fun _ habandoned _ => by
        refine ⟨hopen, fun hmem => ?_, hwait.kept habandoned⟩
        exact absurd (hmail _ hmem) (by simp [isRegister]) }

theorem Phase.received_handled (h : Received r v c req)
    (hhandled : Handled cfg r { v with events := [] } v' (.intake req)) : Phase r v' := by
  rcases hhandled h.state with ⟨e, rfl⟩ | ⟨b, hgoes⟩
  · -- refused before it was registered
    have hsink := @Client.refuse_first σ cfg c h.sent e
    exact .ended {
      client := by rw [h.client]; rfl
      events := by simp
      tokenizing := h.tokenizing
      parked := h.parked
      pushed := by simp [h.pushed]
      unread := by simp [h.unread]
      letters := h.letters
      owed := h.owed
      skipped := h.skipped
      known := .inr ⟨h.entry, by simp [h.mail]⟩
      mail := by simp [h.mail]
      closing := fun hopen => absurd ⟨h.entry, by simp [h.mail]⟩ hopen.not_shut
      sent := hsink.1
      connected := fun hopened _ => hsink.2 hopened }
  have hopen : View.Open { v with events := [], mail := v.mail ++ [.register b] } :=
    .inr ⟨h.entry, b, [], by simp [h.mail], by simp⟩
  have hmail : ∀ x ∈ v.mail ++ [.register b], x.isRegister = true := by
    simp [h.mail, isRegister]
  have hwait : Waiting r { v with events := [], mail := v.mail ++ [.register b] } c :=
    { h.toWaiting with }
  have hunsent : View.Unsent { v with events := [], mail := v.mail ++ [.register b] } :=
    { h.toUnsent with }
  cases hgoes with
  | finishes hfin => exact .finishes hfin hwait hunsent { h with events := rfl } hopen hmail
  | @tokenizes req' hr hstate hkind =>
    exact .inside { hwait, hunsent with
      place := .inl ⟨rfl, by simp [h.tokenizing], hstate⟩
      encoding := h.encoding
      parked := h.parked
      kind := hkind
      isOpen := hopen
      mail := hmail }
  | @parks req' hr hstate hkind =>
    exact .parked { hwait, hunsent with
      place := .inl ⟨rfl, by simp [h.encoding]⟩
      tokenizing := h.tokenizing
      parked := rfl
      rid := hr
      state := hstate
      kind := hkind
      isOpen := hopen
      mail := hmail }
  | @decodes ids hkind =>
    exact .handed { hunsent with
      events := rfl
      tokenizing := h.tokenizing
      encoding := h.encoding
      parked := h.parked
      client := h.client
      armed := (h.unguarded hkind).1
      abandoned := (h.unguarded hkind).2
      lane := h.kept (h.unguarded hkind).2
      place := .inl ⟨h.sent, hopen.append (by simp [isRegister]) rfl rfl, ids,
        .inr ⟨b, by simp [h.mail]⟩⟩ }

theorem Phase.handle {rest : List TmEvent} (h : Phase r v) (hevents : v.events = event :: rest)
    (hhandled : Handled cfg r { v with events := rest } v' event) : Phase r v' := by
  have hsome : v.events ≠ [] := by simp [hevents]
  cases h with
  | fresh h | pushed h | handed h => exact absurd h.events hsome
  | received h =>
    obtain ⟨rfl, rfl⟩ := cons.inj (hevents.symm.trans h.events)
    exact received_handled h hhandled
  | inside h =>
    rcases h.place with ⟨hnone, -⟩ | ⟨hone, htokenizing, hstate⟩
    · exact absurd hnone hsome
    · obtain ⟨rfl, rfl⟩ := cons.inj (hevents.symm.trans hone)
      exact .finishes (hhandled h.kind hstate) { h.toWaiting with } { h.toUnsent with }
        ⟨rfl, htokenizing, h.encoding, h.parked⟩ h.isOpen h.mail
  | @parked c req h =>
    rcases h.place with ⟨hnone, -⟩ | ⟨event', hone, hmm, hencoding⟩
    · exact absurd hnone hsome
    obtain ⟨rfl, rfl⟩ := cons.inj (hevents.symm.trans hone)
    have hfin : Finishes cfg r { v with events := [], parked := none } v' := by
      cases event with
      | intake _ | tokenized _ => cases hmm
      | mmEncoded _ _ | mmFailed _ _ => exact hhandled.2 req h.parked h.rid h.state h.kind
    exact .finishes hfin { h.toWaiting with } { h.toUnsent with }
      ⟨rfl, h.tokenizing, hencoding, rfl⟩ h.isOpen h.mail
  | ended h =>
    have hmm := h.events event (hevents ▸ mem_cons_self)
    have hsame : v' = { v with events := rest } := by
      cases event with
      | intake _ | tokenized _ => cases hmm
      | mmEncoded _ _ | mmFailed _ _ => exact hhandled.1 h.parked
    subst hsame
    exact .ended { h with events := fun e he => h.events e (hevents ▸ mem_cons_of_mem _ he) }

end SparkInfer.Server
