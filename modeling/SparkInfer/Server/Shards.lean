import SparkInfer.Server.View

/-!
# What a shard does with the mail of a request

A message either changes the entry of the request (`Register`, `Deregister`), finds no
entry and is dropped, ends the response with a terminal item, or is an intermediate chunk.
-/

namespace SparkInfer.Server

open List World DetokMsg Option

variable {σ : Type} {cfg : Config σ}

/-- The mail is an answer: it needs the entry of its request. -/
def Mail.isAnswer : Mail → Bool
  | .register _ | .deregister => false
  | _ => true

def Mail.ends : Mail → Bool
  | .register _ => false
  | .chunk ev => ev.finishReason.isSome
  | _ => true

inductive Opened (cfg : Config σ) (r : Rid) (v : View σ) : Mail → View σ → Prop
  | register (noStopTrim : Bool) : Opened cfg r v (.register noStopTrim)
      { v with entry := some ⟨noStopTrim, cfg.backend.newDecoder, .queued⟩ }
  | deregister : Opened cfg r v .deregister { v with entry := none }
  | dropped {x : Mail} (hentry : v.entry = none) (hx : x.isAnswer = true) : Opened cfg r v x v
  | ended {x : Mail} {item : ResponseItem} {sources : List AbortSource}
      (hentry : v.entry.isSome = true) (hx : x.isAnswer = true)
      (hitem : item.isTerminal = true) (hsources : ∀ source ∈ sources, source = .detok r)
      (hdecode : ∀ ids, x = .decode ids → sources = []) :
    Opened cfg r v x { v with
      client := v.client.map fun c => (c.trySend cfg item).1
      entry := none
      lane := v.lane ++ sources }
  | framed {ev out : ChunkEvent} {st : DetokState σ} {c : Client}
      (hentry : v.entry.isSome = true) (hfinish : ev.finishReason = none)
      (hclient : v.client = some c) (hopen : c.closed = false) (hroom : c.full cfg = false) :
    Opened cfg r v (.chunk ev) { v with
      client := some { c with sent := c.sent ++ [.frame out] }
      entry := some st }
  | lost {ev : ChunkEvent} {sources : List AbortSource}
      (hentry : v.entry.isSome = true) (hfinish : ev.finishReason = none)
      (hclient : ∀ c, v.client = some c → c.closed = true ∨ c.full cfg = true)
      (hsources : ∀ source ∈ sources, source = .detok r) :
    Opened cfg r v (.chunk ev) { v with entry := none, lane := v.lane ++ sources }

inductive OpenedAll (cfg : Config σ) (r : Rid) : View σ → List Mail → View σ → Prop
  | nil (v : View σ) : OpenedAll cfg r v [] v
  | cons {v v₁ v' : View σ} {x : Mail} {xs : List Mail} (h : Opened cfg r v x v₁)
      (hrest : OpenedAll cfg r v₁ xs v') : OpenedAll cfg r v (x :: xs) v'

variable {w : World σ} {r : Rid} {s : ℕ}

theorem view_lane {sources : List AbortSource} (hsources : ∀ source ∈ sources, source = .detok r) :
    ({ w with abortLane := w.abortLane ++ sources } : World σ).view cfg r
      = { w.view cfg r with lane := (w.view cfg r).lane ++ sources } := by
  have hfilter : sources.filter (fun source => source.rid = r) = sources := by
    refine filter_eq_self.mpr fun source hsource => ?_
    rw [hsources source hsource]
    exact decide_eq_true rfl
  simp [view, pushed, hfilter]

section Entry

variable {st : DetokState σ} (hentry : (w.shards (cfg.shard r)).table r = some st)
include hentry

theorem opened_ended {x : Mail} {item : ResponseItem} {sources : List AbortSource}
    (hx : x.isAnswer = true) (hitem : item.isTerminal = true) (hsources : ∀ source ∈ sources, source = .detok r)
    (hdecode : ∀ ids, x = .decode ids → sources = []) : Opened cfg r (w.view cfg r) x
      ((({ w with abortLane := w.abortLane ++ sources }.trySend cfg r item).1.setEntry
        (cfg.shard r) r none).view cfg r) := by
  rw [view_setEntry, if_pos ⟨rfl, rfl⟩, trySend_self, view_lane hsources]
  exact .ended (isSome_of_mem hentry) hx hitem hsources hdecode

theorem opened_answered {x : Mail} {item : ResponseItem} (hx : x.isAnswer = true)
    (hitem : item.isTerminal = true) : Opened cfg r (w.view cfg r) x
      (((w.trySend cfg r item).1.setEntry (cfg.shard r) r none).view cfg r) := by
  have h := @opened_ended σ cfg w r st hentry x item [] hx hitem (by simp) (by simp)
  simpa using h

theorem opened_lost {ev : ChunkEvent} {sources : List AbortSource} (hfinish : ev.finishReason = none)
    (hclient : ∀ c, w.clients r = some c → c.closed = true ∨ c.full cfg = true)
    (hsources : ∀ source ∈ sources, source = .detok r) : Opened cfg r (w.view cfg r) (.chunk ev)
      (({ w with abortLane := w.abortLane ++ sources }.setEntry (cfg.shard r) r none).view cfg r) := by
  rw [view_setEntry, if_pos ⟨rfl, rfl⟩, view_lane hsources]
  exact .lost (isSome_of_mem hentry) hfinish hclient hsources

theorem opened_frame {ev out : ChunkEvent} {st' : DetokState σ} (hfinish : ev.finishReason = none) :
    Opened cfg r (w.view cfg r) (.chunk ev) ((match w.trySend cfg r (.frame out) with
        | (w, .ok ()) => w.setEntry (cfg.shard r) r (some st')
        | (w, .error .full) => (w.sendAbort (.detok r)).setEntry (cfg.shard r) r none
        | (w, .error .closed) => w.setEntry (cfg.shard r) r none).view cfg r) := by
  have hclosed : (∀ c, w.clients r = some c → c.closed = true ∨ c.full cfg = true) →
      Opened cfg r (w.view cfg r) (.chunk ev) ((w.setEntry (cfg.shard r) r none).view cfg r) := by
    intro hclient
    have h := @opened_lost σ cfg w r st hentry ev [] hfinish hclient (by simp)
    simpa using h
  cases hc : w.clients r with
  | none =>
    simp only [trySend, hc]
    exact hclosed (by simp [hc])
  | some c =>
    have hself : w.setClient r c = w := by
      simp [setClient, ← hc]
    simp only [trySend, hc, Client.trySend]
    by_cases hclose : c.closed = true
    · simp only [if_pos hclose, hself]
      exact hclosed (by simp [hc, hclose])
    by_cases hfull : c.full cfg = true
    · simp only [if_neg hclose, if_pos hfull, hself]
      refine opened_lost hentry hfinish ?_ (by simp)
      intro c' hc'
      obtain rfl : c = c' := some.inj (hc.symm.trans hc')
      exact .inr hfull
    · simp only [if_neg hclose, if_neg hfull]
      rw [view_setEntry, if_pos ⟨rfl, rfl⟩, view_setClient, if_pos rfl]
      exact .framed (isSome_of_mem hentry) hfinish hc (by simpa using hclose)
        (by simpa using hfull)

end Entry

theorem handleChunk_opened (w : World σ) (ev : ChunkEvent) :
    Opened cfg ev.rid (w.view cfg ev.rid) (.chunk ev)
      ((handleChunk cfg (cfg.shard ev.rid) w ev).view cfg ev.rid) := by
  unfold handleChunk
  cases hentry : (w.shards (cfg.shard ev.rid)).table ev.rid with
  | none => exact .dropped hentry rfl
  | some st =>
    dsimp only
    cases st.decodeChunk cfg ev with
    | error e => exact opened_ended hentry rfl rfl (by simp) (by simp)
    | ok p =>
      dsimp only
      split
      · exact opened_answered hentry rfl rfl
      · rename_i hfinish
        exact opened_frame hentry (by simpa using hfinish)

theorem handleDecode_opened (w : World σ) (r : Rid) (tokenIds : List ℤ) :
    Opened cfg r (w.view cfg r) (.decode tokenIds)
      ((w.handleDecode cfg (cfg.shard r) r tokenIds).view cfg r) := by
  unfold handleDecode
  cases hentry : (w.shards (cfg.shard r)).table r with
  | none => exact .dropped hentry rfl
  | some st =>
    cases cfg.backend.decodeOnce tokenIds with
    | error e | ok text => exact opened_answered hentry rfl rfl

theorem handleResult_opened (w : World σ) (r : Rid) (payload : Bytes) :
    Opened cfg r (w.view cfg r) (.result payload)
      ((w.handleResult cfg (cfg.shard r) r payload).view cfg r) := by
  unfold handleResult
  cases hentry : (w.shards (cfg.shard r)).table r with
  | none => exact .dropped hentry rfl
  | some st => exact opened_answered hentry rfl rfl

theorem handleFail_opened (w : World σ) (r : Rid) (message : String) :
    Opened cfg r (w.view cfg r) (.fail message)
      ((w.handleFail cfg (cfg.shard r) r message).view cfg r) := by
  unfold handleFail
  cases hentry : (w.shards (cfg.shard r)).table r with
  | none => exact .dropped hentry rfl
  | some st => exact opened_ended hentry rfl rfl (by simp) (by simp)

namespace Local

variable (w : World σ)

theorem trySend_shards (x : Rid) (item : ResponseItem) :
    (w.trySend cfg x item).1.shards = w.shards := by
  unfold World.trySend
  split <;> rfl

theorem sendDetok (x : Rid) : Local cfg x w (w.sendAbort (.detok x)) :=
  sendAbort w rfl

theorem handleChunk (s : ℕ) (ev : ChunkEvent) :
    Local cfg ev.rid w (World.handleChunk cfg s w ev) := by
  unfold World.handleChunk
  split
  · exact refl w
  rename_i st hst
  dsimp only
  split
  · exact ((sendDetok w _).trans (trySend _ _ _)).trans (removeEntry _ s _)
  split
  · exact (trySend w _ _).trans (removeEntry _ s _)
  rename_i out _ _ _
  have hsend : Local cfg ev.rid w (w.trySend cfg ev.rid (.frame out)).1 := trySend w _ _
  have hshards : (w.trySend cfg ev.rid (.frame out)).1.shards = w.shards := trySend_shards w _ _
  split
  all_goals
    rename_i heq
    rw [heq] at hsend hshards
  · refine hsend.trans (setEntry _ s _ fun hw _ => hw.table s _ ?_)
    rw [hshards, hst]
    rfl
  · exact (hsend.trans (sendDetok _ _)).trans (removeEntry _ s _)
  · exact hsend.trans (removeEntry _ s _)

theorem handleDecode (s : ℕ) (x : Rid) (tokenIds : List ℤ) :
    Local cfg x w (w.handleDecode cfg s x tokenIds) := by
  unfold World.handleDecode
  split
  · exact refl w
  · exact (trySend w _ _).trans (removeEntry _ s _)

theorem handleResult (s : ℕ) (x : Rid) (payload : Bytes) :
    Local cfg x w (w.handleResult cfg s x payload) := by
  unfold World.handleResult
  split
  · exact refl w
  · exact (trySend w _ _).trans (removeEntry _ s _)

theorem handleFail (s : ℕ) (x : Rid) (message : String) :
    Local cfg x w (w.handleFail cfg s x message) := by
  unfold World.handleFail
  split
  · exact refl w
  · exact ((sendDetok w _).trans (trySend _ _ _)).trans (removeEntry _ s _)

end Local

theorem handleChunks_opened (w : World σ) (evs : List ChunkEvent) (r : Rid)
    (hshard : ∀ ev ∈ evs, ev.rid = r → cfg.shard r = s) :
    OpenedAll cfg r (w.view cfg r) ((evs.filter fun ev => ev.rid = r).map .chunk)
      ((evs.foldl (handleChunk cfg s) w).view cfg r) := by
  induction evs generalizing w with
  | nil => exact .nil _
  | cons ev evs ih =>
    have hrest := ih (handleChunk cfg s w ev) (forall_mem_cons.mp hshard).2
    by_cases hr : ev.rid = r
    · rw [filter_cons_of_pos (by simpa using hr)]
      obtain rfl := hshard ev mem_cons_self hr
      subst hr
      exact .cons (handleChunk_opened w ev) hrest
    · rw [filter_cons_of_neg (by simpa using hr)]
      rwa [(Local.handleChunk w s ev).other r (Ne.symm hr)] at hrest

theorem openedAll_of_local {w' : World σ} {x : Rid} {y : Mail} (hlocal : Local cfg x w w')
    (hopened : Opened cfg x (w.view cfg x) y (w'.view cfg x)) (r : Rid) :
    OpenedAll cfg r (w.view cfg r) (if x = r then [y] else []) (w'.view cfg r) := by
  by_cases hx : x = r
  · subst hx
    rw [if_pos rfl]
    exact .cons hopened (.nil _)
  · rw [if_neg hx, hlocal.other r (Ne.symm hx)]
    exact .nil _

/-- A shard handles a message; every request finds its own part of it opened. -/
theorem handleMsg_opened (w : World σ) (msg : DetokMsg) (r : Rid)
    (hshard : ∀ x, msg.mail x ≠ [] → cfg.shard x = s) :
    OpenedAll cfg r (w.view cfg r) (msg.mail r) ((w.handleMsg cfg s msg).view cfg r) := by
  cases msg with
  | chunks evs =>
    refine handleChunks_opened w evs r fun ev hev hr => hshard r ?_
    have hmem : ev ∈ evs.filter fun ev => ev.rid = r := mem_filter.mpr ⟨hev, by simpa using hr⟩
    simpa [mail] using ne_nil_of_mem hmem
  | register x b =>
    obtain rfl := hshard x (by simp [mail])
    refine openedAll_of_local (Local.setEntry w _ x fun _ _ => rfl) ?_ r
    rw [view_setEntry, if_pos ⟨rfl, rfl⟩]
    exact .register b
  | deregister x =>
    obtain rfl := hshard x (by simp [mail])
    refine openedAll_of_local (Local.removeEntry w _ x) ?_ r
    rw [view_setEntry, if_pos ⟨rfl, rfl⟩]
    exact .deregister
  | decode x tokenIds =>
    obtain rfl := hshard x (by simp [mail])
    exact openedAll_of_local (Local.handleDecode w _ x tokenIds) (handleDecode_opened w x tokenIds) r
  | result x payload =>
    obtain rfl := hshard x (by simp [mail])
    exact openedAll_of_local (Local.handleResult w _ x payload) (handleResult_opened w x payload) r
  | fail x message =>
    obtain rfl := hshard x (by simp [mail])
    exact openedAll_of_local (Local.handleFail w _ x message) (handleFail_opened w x message) r

end SparkInfer.Server
