import SparkInfer.Server.Phases

/-!
# Aborts and answers

The moves of a request that is with the scheduler or its shard, and the theorem that every
careful move keeps a request in some phase.
-/

namespace SparkInfer.Server

open List

variable {σ : Type} {cfg : Config σ} {r : Rid} {v v' : View σ}
variable {xs : List Mail} {c : Client} {frame msg : SchedulerRequest} {rest : List SchedulerRequest}
variable {x : Mail}

def View.abort (v : View σ) (r : Rid) (lane : List AbortSource) : View σ :=
  { v with
    lane := lane
    parked := none
    mail := v.mail ++ [.deregister]
    pushed := v.pushed ++ [.abortReq r]
    unread := v.unread ++ [.abortReq r] }

theorem deregister_not_register : ∀ x ∈ [Mail.deregister], x.isRegister = false := by
  simp [Mail.isRegister]

theorem View.Open.abort (h : v.Open) (lane : List AbortSource) : (v.abort r lane).Open :=
  h.append deregister_not_register rfl rfl

theorem View.Shut.abort (h : v.Shut) (lane : List AbortSource) : (v.abort r lane).Shut :=
  h.append deregister_not_register rfl rfl

theorem Phase.abort {source : AbortSource} {lane : List AbortSource} (h : Phase r v)
    (hlane : v.lane = source :: lane) (hevents : ∀ event ∈ v.events, event.isMm = true)
    (htokenizing : v.tokenizing = []) : Phase r (v.abort r lane) := by
  have hsome : v.lane ≠ [] := by simp [hlane]
  have hmail : ∀ {P : Mail → Prop}, (∀ x ∈ v.mail, P x) → P .deregister →
      ∀ x ∈ v.mail ++ [.deregister], P x := fun hold hnew =>
    forall_mem_append.mpr ⟨hold, by simpa using hnew⟩
  have haborts : ∀ {l : List SchedulerRequest}, (∀ msg ∈ l, msg = .abortReq r) →
      ∀ msg ∈ l ++ [.abortReq r], msg = .abortReq r := fun hold =>
    forall_mem_append.mpr ⟨hold, by simp⟩
  cases h with
  | fresh h | handed h => exact absurd h.lane hsome
  | received h =>
    exact absurd (hevents _ (h.events ▸ mem_singleton_self _)) (by simp [TmEvent.isMm])
  | inside h =>
    rcases h.place with ⟨-, hone, -⟩ | ⟨hone, -⟩
    · exact absurd htokenizing (by simp [hone])
    · exact absurd (hevents _ (hone ▸ mem_singleton_self _)) (by simp [TmEvent.isMm])
  | @parked c req h =>
    have habandoned : c.abandoned = true := by
      by_contra hnot
      exact hsome (h.kept (by simpa using hnot))
    exact .ended {
      client := h.client
      events := hevents
      tokenizing := h.tokenizing
      parked := rfl
      pushed := haborts (by simp [h.pushed])
      unread := haborts (by simp [h.unread])
      letters := h.letters
      owed := h.owed
      skipped := h.skipped
      known := .inl (h.isOpen.abort lane)
      mail := hmail (fun x hx => Mail.not_answer_of_register (h.mail x hx)) rfl
      closing := fun _ => by simp [View.abort]
      sent := .inl h.sent
      connected := fun _ hkept => absurd habandoned (by simp [hkept]) }
  | @pushed c frame rest h =>
    exact @Phase.pushed _ _ _ c frame (rest ++ [.abortReq r]) { h with
      parked := rfl
      pushed := by simp [View.abort, h.pushed]
      aborts := haborts h.aborts
      unread := by
        obtain ⟨l, hl⟩ := h.unread
        exact ⟨l, by simp [View.abort, ← hl]⟩
      known := h.known.imp (·.abort lane) (·.abort lane)
      answers := h.answers
      terminal := fun ht => (h.terminal ht).abort lane
      abandoned := fun _ => .inr (by simp)
      shut := fun _ => .inr (by simp [View.abort])
      aborted := fun _ => by simp
      owing := fun _ => .inr (.inr (.inr ⟨.deregister, by simp [View.abort], rfl⟩))
      connected := fun hclosed hkept hsent =>
        absurd (h.connected hclosed hkept hsent).2.2 hsome }
  | ended h =>
    exact .ended { h with
      parked := rfl
      pushed := haborts h.pushed
      unread := haborts h.unread
      known := h.known.imp (·.abort lane) (·.abort lane)
      mail := hmail h.mail rfl
      closing := fun _ => by simp [View.abort] }

theorem Phase.deliver {ys : List Mail} (h : Phase r v) (hletters : v.letters = xs ++ ys) :
    Phase r { v with mail := v.mail ++ xs, letters := ys } := by
  have hnone : v.letters = [] → Phase r { v with mail := v.mail ++ xs, letters := ys } := by
    intro hempty
    obtain ⟨rfl, rfl⟩ := append_eq_nil_iff.mp (hletters.symm.trans hempty)
    rwa [append_nil, ← hempty]
  cases h with
  | fresh h | received h | inside h | parked h | handed h | ended h => exact hnone h.letters
  | pushed h =>
    have hxs : ∀ x ∈ xs, x.isAnswer = true := fun x hx =>
      h.answers x (hletters ▸ mem_append_left _ hx)
    have hreg : ∀ x ∈ xs, x.isRegister = false := fun x hx => Mail.not_register_of_answer (hxs x hx)
    have hopen : v.Open → View.Open { v with mail := v.mail ++ xs, letters := ys } :=
      fun ho => ho.append hreg rfl rfl
    have hshut : v.Shut → View.Shut { v with mail := v.mail ++ xs, letters := ys } :=
      fun hs => hs.append hreg rfl rfl
    have hback : View.Open { v with mail := v.mail ++ xs, letters := ys } → v.Open := fun ho =>
      h.known.resolve_right fun hs => ho.not_shut (hshut hs)
    exact .pushed { h with
      known := h.known.imp hopen hshut
      answers := fun x hx => h.answers x (hletters ▸ mem_append_right _ hx)
      terminal := fun ht => hshut (h.terminal ht)
      shut := fun hr => (h.shut hr).imp hshut (mem_append_left _)
      owing := fun ho => by
        have howing := h.owing (hback ho)
        rwa [hletters, ← append_assoc] at howing
      connected := fun hclosed hkept hsent => by
        obtain ⟨ho, hdereg, hlane⟩ := h.connected hclosed hkept hsent
        refine ⟨hopen ho, fun hmem => ?_, hlane⟩
        rcases mem_append.mp hmem with hmem | hmem
        · exact hdereg hmem
        · exact absurd (hxs _ hmem) (by simp [Mail.isAnswer]) }

theorem Client.trySend_room (hroom : c.full cfg = false) (item : ResponseItem) :
    (c.trySend cfg item).1 = (if c.closed then c else { c with sent := c.sent ++ [item] }) := by
  unfold Client.trySend
  by_cases hclosed : c.closed = true <;> simp [hclosed, hroom]

theorem terminal_last {l : List ResponseItem} (h : ∀ item ∈ l, item.isTerminal = false)
    (item : ResponseItem) : ∀ ys item' zs, l ++ [item] = ys ++ item' :: zs →
      item'.isTerminal = true → zs = [] := by
  intro ys item' zs heq hterminal
  rcases eq_nil_or_concat zs with hzs | ⟨zs', z, rfl⟩
  · exact hzs
  · rw [concat_eq_append, ← cons_append, ← append_assoc] at heq
    have hl := (append_inj' heq rfl).1
    exact absurd hterminal (by simp [h item' (by simp [hl])])

theorem Pushed.closes (h : Pushed r v c frame rest) (c' : Client) (sources : List AbortSource)
    (hnone : ∀ y ∈ xs, y.isRegister = false) (habandoned : c'.abandoned = c.abandoned)
    (hlast : ∀ ys item zs, c'.sent = ys ++ item :: zs → item.isTerminal = true → zs = [])
    (hconnected : c'.closed = false → c'.abandoned = false → ∃ item ∈ c'.sent, item.isTerminal = true) :
    Pushed r ({ v with
      client := some c', mail := xs, entry := none, lane := v.lane ++ sources } : View σ)
      c' frame rest := by
  have hshut : View.Shut ({ v with
      client := some c', mail := xs, entry := none, lane := v.lane ++ sources } : View σ) :=
    ⟨rfl, hnone⟩
  exact { h with
    client := rfl
    known := .inr hshut
    terminal := fun _ => hshut
    last := hlast
    abandoned := fun ha => (h.abandoned (habandoned ▸ ha)).imp (mem_append_left _) id
    shut := fun _ => .inl hshut
    owing := fun ho => absurd hshut ho.not_shut
    connected := fun hclosed hkept hsent => by
      obtain ⟨item, hitem, hterminal⟩ := hconnected hclosed hkept
      exact absurd hterminal (by simp [hsent item hitem]) }

section Opens

variable (hmail : v.mail = x :: xs)
include hmail

theorem View.Shut.tail (h : v.Shut) : View.Shut { v with mail := xs } :=
  ⟨h.1, fun y hy => h.2 y (hmail ▸ mem_cons_of_mem _ hy)⟩

theorem View.Open.here (h : v.Open) (hx : x.isRegister = false) :
    v.entry.isSome = true ∧ ∀ y ∈ xs, y.isRegister = false := by
  rcases h with ⟨hsome, hnone⟩ | ⟨-, b, ys, hys, -⟩
  · exact ⟨hsome, fun y hy => hnone y (hmail ▸ mem_cons_of_mem _ hy)⟩
  · obtain ⟨rfl, rfl⟩ := cons.inj (hmail.symm.trans hys)
    cases hx

variable (hopened : Opened cfg r { v with mail := xs } x v')
include hopened

theorem View.Shut.opened (h : v.Shut) : v' = { v with mail := xs } := by
  have hx : x.isRegister = false := h.2 x (hmail ▸ mem_cons_self)
  cases hopened with
  | register b => cases hx
  | deregister => simp [h.1]
  | dropped _ _ => rfl
  | ended hentry | framed hentry | lost hentry => simp [h.1] at hentry

theorem View.Open.register_opened (h : v.Open) (hx : x.isRegister = true) :
    ∃ st, v' = { v with mail := xs, entry := some st } ∧ v'.Open := by
  rcases h with ⟨-, hnone⟩ | ⟨-, b, ys, hys, hrest⟩
  · exact absurd hx (by simp [hnone x (hmail ▸ mem_cons_self)])
  obtain ⟨rfl, rfl⟩ := cons.inj (hmail.symm.trans hys)
  cases hopened with
  | register => exact ⟨_, rfl, .inl ⟨rfl, hrest⟩⟩
  | dropped _ hans | ended _ hans => cases hans

theorem View.Open.only_opened (h : v.Open) (hall : ∀ y ∈ v.mail, y.isRegister = true) :
    ∃ st, v' = { v with mail := xs, entry := some st } ∧ v'.Open ∧ ∀ y ∈ xs, y.isRegister = true := by
  obtain ⟨st, rfl, hopen⟩ := h.register_opened hmail hopened (hall x (hmail ▸ mem_cons_self))
  exact ⟨st, rfl, hopen, fun y hy => hall y (hmail ▸ mem_cons_of_mem _ hy)⟩

theorem Over.opens (h : Over r v c) : Over r v' c := by
  have hrest : ∀ y ∈ xs, y.isAnswer = false := fun y hy => h.mail y (hmail ▸ mem_cons_of_mem _ hy)
  rcases h.known with hopen | hshut
  · have hdereg : Mail.deregister = x ∨ .deregister ∈ xs := by
      simpa [hmail] using h.closing hopen
    by_cases hreg : x.isRegister = true
    · obtain ⟨st, rfl, hopen'⟩ := hopen.register_opened hmail hopened hreg
      refine { h with known := .inl hopen', mail := hrest, closing := fun _ => ?_ }
      refine hdereg.resolve_left ?_
      rintro rfl
      cases hreg
    have hnot : x.isAnswer = false := h.mail x (hmail ▸ mem_cons_self)
    obtain ⟨-, hnone⟩ := hopen.here hmail (by simpa using hreg)
    cases hopened with
    | register b => exact absurd rfl hreg
    | deregister =>
      exact { h with
        known := .inr ⟨rfl, hnone⟩
        mail := hrest
        closing := fun ho => absurd ⟨rfl, hnone⟩ ho.not_shut }
    | dropped _ hans | ended _ hans => exact absurd hans (by simp [hnot])
    | framed | lost => cases hnot
  · obtain rfl := hshut.opened hmail hopened
    exact { h with
      known := .inr (hshut.tail hmail)
      mail := hrest
      closing := fun ho => absurd (hshut.tail hmail) ho.not_shut }

variable (hroom :
  x.isAnswer = true → v.entry.isSome = true → ∀ c, v.client = some c → c.full cfg = false)
include hroom

theorem Handed.opens (h : Handed v c) : ∃ c', Handed v' c' := by
  rcases h.place with ⟨hsent, hopen, ids, hone | ⟨b, htwo⟩⟩ | ⟨hnone, -⟩
  · obtain ⟨rfl, rfl⟩ := cons.inj (hmail.symm.trans hone)
    obtain ⟨hsome, -⟩ := hopen.here hmail rfl
    cases hopened with
    | dropped hentry => exact absurd hsome (by simp [show v.entry = none from hentry])
    | @ended _ item sources hentry _ hitem _ hdecode =>
      have hfull := hroom rfl hsome c h.client
      obtain rfl := hdecode ids rfl
      have hclient := @Client.trySend_room σ cfg c hfull item
      refine ⟨(c.trySend cfg item).1, { h with
        client := by rw [h.client]; rfl
        armed := ?_
        abandoned := ?_
        lane := by simp [h.lane]
        place := .inr ⟨rfl, rfl, ?_⟩ }⟩
      · rw [hclient]
        split <;> exact h.armed
      · rw [hclient]
        split <;> exact h.abandoned
      rw [hclient]
      by_cases hclosed : c.closed = true
      · exact .inr (by simp [hclosed, hsent])
      · exact .inl ⟨item, by simp [hclosed, hsent], hitem⟩
  · obtain ⟨rfl, rfl⟩ := cons.inj (hmail.symm.trans htwo)
    obtain ⟨st, rfl, hopen'⟩ := hopen.register_opened hmail hopened rfl
    exact ⟨c, { h with place := .inl ⟨hsent, hopen', ids, .inl rfl⟩ }⟩
  · exact absurd hnone (by simp [hmail])

theorem Pushed.opens (h : Pushed r v c frame rest) : ∃ c', Pushed r v' c' frame rest := by
  rcases h.known with hopen | hshut
  · -- nothing terminal was sent, or the entry were gone
    have hsent : ∀ item ∈ c.sent, item.isTerminal = false := by
      intro item hitem
      by_contra hterminal
      exact hopen.not_shut (h.terminal ⟨item, hitem, by simpa using hterminal⟩)
    have hdereg : rest ≠ [] → .deregister = x ∨ .deregister ∈ xs := by
      intro hrest
      have hmem := (h.shut hrest).resolve_left hopen.not_shut
      simpa [hmail] using hmem
    have howing : frame ∈ v.unread ∨ v.owed = true ∨ v.skipped = true ∨ x.ends = true ∨
        ∃ y ∈ xs ++ v.letters, y.ends = true := by
      have := h.owing hopen
      simpa [hmail, exists_or] using this
    by_cases hreg : x.isRegister = true
    · obtain ⟨st, rfl, hopen'⟩ := hopen.register_opened hmail hopened hreg
      refine ⟨c, { h with
        known := .inl hopen'
        terminal := fun ⟨item, hitem, ht⟩ => absurd ht (by simp [hsent item hitem])
        shut := fun hrest => .inr ((hdereg hrest).resolve_left ?_)
        owing := fun _ => ?_
        connected := fun hclosed hkept hnone => ?_ }⟩
      · rintro rfl
        cases hreg
      · have hends : x.ends = false := by cases x <;> first | rfl | cases hreg
        simpa [hends] using howing
      · obtain ⟨-, hnot, hlane⟩ := h.connected hclosed hkept hnone
        exact ⟨hopen', fun hmem => hnot (hmail ▸ mem_cons_of_mem _ hmem), hlane⟩
    obtain ⟨hsome, hnone⟩ := hopen.here hmail (by simpa using hreg)
    have hclient := h.client
    cases hopened with
    | register b => exact absurd rfl hreg
    | deregister =>
      have hcloses := h.closes c [] hnone rfl h.last ?_
      · refine ⟨c, ?_⟩
        simpa [hclient] using hcloses
      · intro hclosed hkept
        exact absurd (hmail ▸ mem_cons_self) (h.connected hclosed hkept hsent).2.1
    | dropped hentry => exact absurd hsome (by simp [show v.entry = none from hentry])
    | @ended _ item sources _ hans hitem _ _ =>
      have hfull := hroom hans hsome c hclient
      have htry := @Client.trySend_room σ cfg c hfull item
      refine ⟨(c.trySend cfg item).1, ?_⟩
      have hcloses := h.closes (c.trySend cfg item).1 sources hnone ?_ ?_ ?_
      · simpa [hclient] using hcloses
      · rw [htry]
        split <;> rfl
      · rw [htry]
        split
        · exact h.last
        · exact terminal_last hsent item
      · rw [htry]
        split_ifs with hclosed
        · intro hopened
          exact absurd hclosed (by simp [hopened])
        · exact fun _ _ => ⟨item, by simp, hitem⟩
    | @framed ev out st c₀ _ hfinish hc₀ _ _ =>
      obtain rfl : c = c₀ := Option.some.inj (hclient.symm.trans hc₀)
      have hopen' : View.Open ({ v with
          client := some { c with sent := c.sent ++ [.frame out] }
          mail := xs, entry := some st } : View σ) := .inl ⟨rfl, hnone⟩
      have hsent' : ∀ item ∈ c.sent ++ [.frame out], item.isTerminal = false := by
        intro item hitem
        rcases mem_append.mp hitem with hitem | hitem
        · exact hsent item hitem
        · rw [mem_singleton.mp hitem]
          rfl
      have hends : Mail.ends (.chunk ev) = false := by simp [Mail.ends, hfinish]
      refine ⟨_, { h with
        client := rfl
        known := .inl hopen'
        terminal := fun ⟨item, hitem, ht⟩ => absurd ht (by simp [hsent' item hitem])
        last := fun ys item zs heq ht => by
          have hsplit : c.sent ++ [.frame out] = ys ++ item :: zs := heq
          exact absurd ht (by simp [hsent' item (by simp [hsplit])])
        shut := fun hrest => .inr ((hdereg hrest).resolve_left fun hx => by cases hx)
        owing := fun _ => by simpa [hends] using howing
        connected := fun hclosed hkept _ => ?_ }⟩
      obtain ⟨-, hnot, hlane⟩ := h.connected hclosed hkept hsent
      exact ⟨hopen', fun hmem => hnot (hmail ▸ mem_cons_of_mem _ hmem), hlane⟩
    | @lost ev sources _ hfinish hlost _ =>
      have hcloses := h.closes c sources hnone rfl h.last ?_
      · refine ⟨c, ?_⟩
        simpa [hclient] using hcloses
      intro hclosed _
      rcases hlost c hclient with hc | hc
      · exact absurd hc (by simp [hclosed])
      · exact absurd hc (by simp [hroom rfl hsome c hclient])
  · obtain rfl := hshut.opened hmail hopened
    have hshut' := hshut.tail hmail
    exact ⟨c, { h with
      known := .inr hshut'
      terminal := fun _ => hshut'
      shut := fun _ => .inl hshut'
      owing := fun ho => absurd hshut' ho.not_shut
      connected := fun hclosed hkept hnone =>
        absurd hshut (h.connected hclosed hkept hnone).1.not_shut }⟩

theorem Phase.opens (h : Phase r v) : Phase r v' := by
  have hsome : v.mail ≠ [] := by simp [hmail]
  cases h with
  | fresh h | received h => exact absurd h.mail hsome
  | inside h =>
    obtain ⟨st, rfl, hopen, hall⟩ := h.isOpen.only_opened hmail hopened h.mail
    exact .inside { h with isOpen := hopen, mail := hall }
  | parked h =>
    obtain ⟨st, rfl, hopen, hall⟩ := h.isOpen.only_opened hmail hopened h.mail
    exact .parked { h with isOpen := hopen, mail := hall }
  | pushed h =>
    obtain ⟨c', h'⟩ := h.opens hmail hopened hroom
    exact .pushed h'
  | handed h =>
    obtain ⟨c', h'⟩ := h.opens hmail hopened hroom
    exact .handed h'
  | ended h => exact .ended (h.opens hmail hopened)

end Opens

section Scheduler

variable (h : Phase r v)
include h

theorem Phase.unread_cases (hunread : v.unread = msg :: rest) :
    (∃ c frame aborts, Pushed r v c frame aborts) ∨ (∃ c, Over r v c) ∧ msg = .abortReq r := by
  have hsome : v.unread ≠ [] := by simp [hunread]
  cases h with
  | fresh h | received h | inside h | parked h | handed h => exact absurd h.unread hsome
  | pushed h => exact .inl ⟨_, _, _, h⟩
  | ended h => exact .inr ⟨⟨_, h⟩, h.unread msg (hunread ▸ mem_cons_self)⟩

theorem Phase.owed_cases (howed : v.owed = true) : ∃ c frame aborts, Pushed r v c frame aborts := by
  cases h with
  | fresh h | received h | inside h | parked h | handed h | ended h =>
    exact absurd howed (by simp [h.owed])
  | pushed h => exact ⟨_, _, _, h⟩

theorem Phase.readAbort (hunread : v.unread = .abortReq r :: rest) :
    Phase r { v with unread := rest, aborted := true } := by
  rcases h.unread_cases hunread with ⟨c, frame, aborts, h⟩ | ⟨⟨c, h⟩, -⟩
  · have hframe : frame ≠ .abortReq r := by
      rintro rfl
      exact absurd h.isFrame (by simp [SchedulerRequest.isFrame])
    have hmem : SchedulerRequest.abortReq r ∈ aborts := by
      have hsub := h.unread.subset (hunread ▸ mem_cons_self)
      rw [h.pushed] at hsub
      exact (mem_cons.mp hsub).resolve_left fun heq => hframe heq.symm
    exact .pushed { h with
      unread := (suffix_cons _ _).trans (hunread ▸ h.unread)
      aborted := fun _ => ne_nil_of_mem hmem
      owing := fun ho => by
        have howing := h.owing ho
        rw [hunread, mem_cons, or_iff_right hframe] at howing
        exact howing }
  · exact .ended { h with unread := fun msg hmsg => h.unread msg (hunread ▸ mem_cons_of_mem _ hmsg) }

theorem Phase.readFrame (hunread : v.unread = msg :: rest) (hframe : msg.isFrame = true)
    (owed skipped : Bool) (letters : List Mail) (hletters : ∀ x ∈ letters, x.isAnswer = true)
    (howing : owed = true ∨ skipped = true ∨ ∃ x ∈ letters, x.ends = true) : Phase r { v with
      unread := rest, owed := owed, skipped := skipped, letters := v.letters ++ letters } := by
  rcases h.unread_cases hunread with ⟨c, frame, aborts, h⟩ | ⟨-, rfl⟩
  · exact .pushed { h with
      unread := (suffix_cons _ _).trans (hunread ▸ h.unread)
      answers := fun x hx => (mem_append.mp hx).elim (h.answers x) (hletters x)
      owing := fun _ => by
        rcases howing with h₁ | h₂ | ⟨x, hx, hends⟩
        · exact .inr (.inl h₁)
        · exact .inr (.inr (.inl h₂))
        · exact .inr (.inr (.inr ⟨x, by simp [hx], hends⟩)) }
  · cases hframe

theorem Phase.emits {owed : Bool} (howed : v.owed = true) (hxs : ∀ x ∈ xs, x.isAnswer = true)
    (hend : owed = false → ∃ x ∈ xs, x.ends = true) :
    Phase r { v with letters := v.letters ++ xs, owed := owed } := by
  obtain ⟨c, frame, aborts, h⟩ := h.owed_cases howed
  exact .pushed { h with
    answers := fun x hx => (mem_append.mp hx).elim (h.answers x) (hxs x)
    owing := fun _ => by
      cases howed' : owed with
      | true => exact .inr (.inl rfl)
      | false =>
        obtain ⟨x, hx, hends⟩ := hend howed'
        exact .inr (.inr (.inr ⟨x, by simp [hx], hends⟩)) }

theorem Phase.forgets (howed : v.owed = true) (haborted : v.aborted = true) :
    Phase r { v with owed := false } := by
  obtain ⟨c, frame, aborts, h⟩ := h.owed_cases howed
  exact .pushed { h with
    owing := fun ho => by
      have hdereg := (h.shut (h.aborted haborted)).resolve_left ho.not_shut
      exact .inr (.inr (.inr ⟨.deregister, mem_append_left _ hdereg, rfl⟩)) }

end Scheduler

/-! ## All moves -/

theorem Phase.move (h : Phase r v) (hm : Move cfg r v v') : Phase r v' := by
  cases hm with
  | submit hclient _ hstate => exact h.submit hclient hstate
  | receive hclient => exact h.follows hclient ⟨rfl, rfl, id, id⟩
  | disarm hclient => exact h.follows hclient ⟨rfl, rfl, id, fun _ => rfl⟩
  | dropGuard hclient harmed => exact h.dropGuard hclient harmed
  | close hclient => exact h.follows hclient ⟨rfl, rfl, (fun hc => by cases hc), id⟩
  | tokenizerDone htokenizing _ hkind hstate => exact h.tokenizerDone htokenizing hkind hstate
  | mmDone hencoding hmm _ => exact h.mmDone hencoding hmm
  | handle hevents hhandled => exact h.handle hevents hhandled
  | abort hlane hevents htokenizing => exact h.abort hlane hevents htokenizing
  | deliver hletters => exact h.deliver hletters
  | opens hmail hroom hopened => exact h.opens hmail hopened hroom
  | readAbort hunread => exact h.readAbort hunread
  | takes hunread hframe =>
    have hread := h.readFrame hunread hframe true v.skipped [] (by simp) (.inl rfl)
    rwa [append_nil] at hread
  | @refuses msg rest message hunread hframe =>
    exact h.readFrame hunread hframe v.owed v.skipped [.fail message] (by simp [Mail.isAnswer])
      (.inr (.inr ⟨_, mem_singleton_self _, rfl⟩))
  | passesOver hunread hframe =>
    have hread := h.readFrame hunread hframe v.owed true [] (by simp) (.inr (.inl rfl))
    rwa [append_nil] at hread
  | emits howed hxs hend => exact h.emits howed hxs hend
  | forgets howed haborted => exact h.forgets howed haborted

theorem Phase.moves (h : Phase r v) (hm : Moves cfg r v v') : Phase r v' := by
  induction hm with
  | refl => exact h
  | tail _ hstep ih => exact ih.move hstep

end SparkInfer.Server
