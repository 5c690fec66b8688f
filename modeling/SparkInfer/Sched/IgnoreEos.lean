import SparkInfer.Lib.Run
import SparkInfer.Sched.Acceptance
import Mathlib.Tactic.Linarith

/-!
# The queue of `add_one_req_ignore_eos`

The call simulates the requests to their ends: all decode one token a step, and a request
that is done gives its tokens back.  `insert_sort` puts a new largest entry before the last
one, so `req_states` need not be sorted; all but its last entry are.  The loop then counts
the last request as running for too long, which only makes it turn more requests away.
-/

namespace SparkInfer.Sched.PrefillAdder

open Lib List

variable {H B : Type} {cfg : AdderConfig} {a a' : PrefillAdder H B} {r : WaitingReq}
variable {states before after : List (ℚ × Nat)} {x : ℚ × Nat} {t curRem : ℚ}
variable {allow : Bool}

/-! ## The simulation -/

def liveAt (states : List (ℚ × Nat)) (t : ℚ) : Nat := states.countP fun x => t ≤ x.1

def doneAt (states : List (ℚ × Nat)) (t : ℚ) : Nat :=
  ((states.filter fun x => x.1 < t).map Prod.snd).sum

/-- The memory that is left then, in whatever order the requests are listed. -/
def freeAt (curRem : ℚ) (states : List (ℚ × Nat)) (t : ℚ) : ℚ :=
  curRem + doneAt states t - t * liveAt states t

/-- As long as a request runs, more than the reserve is left. -/
def Lasts (curRem : ℚ) (states : List (ℚ × Nat)) : Prop :=
  ∀ t, 0 ≤ t → 0 < liveAt states t → (liveAt states t : ℚ) < freeAt curRem states t

theorem liveAt_append : liveAt (before ++ after) t = liveAt before t + liveAt after t :=
  countP_append

theorem doneAt_append : doneAt (before ++ after) t = doneAt before t + doneAt after t := by
  simp [doneAt]

theorem of_all_live (h : ∀ x ∈ states, t ≤ x.1) :
    liveAt states t = states.length ∧ doneAt states t = 0 := by
  refine ⟨countP_eq_length.mpr fun x hx => decide_eq_true (h x hx), ?_⟩
  have hnone := filter_eq_nil_iff.mpr fun x hx hlt => absurd (of_decide_eq_true hlt) (not_lt.mpr (h x hx))
  rw [doneAt, hnone]
  rfl

theorem of_all_done (h : ∀ x ∈ states, x.1 < t) :
    liveAt states t = 0 ∧ doneAt states t = (states.map Prod.snd).sum := by
  constructor
  · exact countP_eq_zero.mpr fun x hx hle =>
      absurd (of_decide_eq_true hle) (not_le.mpr (h x hx))
  · rw [doneAt, filter_eq_self.mpr fun x hx => decide_eq_true (h x hx)]

theorem doneAt_le : doneAt states t ≤ (states.map Prod.snd).sum :=
  List.Sublist.sum_le_sum (filter_sublist.map Prod.snd) fun _ _ => Nat.zero_le _

theorem Lasts.perm {states' : List (ℚ × Nat)} (h : Lasts curRem states) (hp : states.Perm states') :
    Lasts curRem states' := by
  intro t
  have hdone : doneAt states' t = doneAt states t := ((hp.symm.filter _).map _).sum_eq
  rw [freeAt, hdone, show liveAt states' t = liveAt states t from hp.symm.countP_eq _]
  exact h t

/-! ## The loop -/

/-- The loop looks at every entry as if the entries before it were done. -/
theorem runsShort_eq_false_iff (curRem freed : ℚ) : runsShort curRem freed states = false ↔
      ∀ before x after, states = before ++ x :: after → (after.length + 1 : ℚ) <
          curRem + (freed + (before.map Prod.snd).sum) - x.1 * (after.length + 1) := by
  induction states generalizing freed with
  | nil => simp [runsShort]
  | cons y rest ih =>
    obtain ⟨left, occupied⟩ := y
    simp only [runsShort]
    split
    · rename_i hshort
      refine iff_of_false Bool.noConfusion fun hall => absurd (hall [] _ rest rfl) (not_lt.mpr ?_)
      simpa using hshort
    rename_i henough
    rw [ih]
    constructor
    · intro hall before x after hsplit
      cases before with
      | nil =>
        cases hsplit
        simpa using not_le.mp henough
      | cons z before =>
        cases hsplit
        simpa [add_assoc] using hall before x after rfl
    · intro hall before x after hsplit
      simpa [add_assoc] using hall ((left, occupied) :: before) x after (by rw [hsplit]; rfl)

/-- `tokens_left` does not fall along the list. -/
def Ascends (states : List (ℚ × Nat)) : Prop := states.Pairwise fun x y => x.1 ≤ y.1

theorem Ascends.split (h : Ascends states) (t : ℚ) : ∃ done live, states = done ++ live ∧
    (∀ x ∈ done, x.1 < t) ∧ ∀ x ∈ live, t ≤ x.1 := by
  induction states with
  | nil => exact ⟨[], [], rfl, by simp⟩
  | cons y rest ih =>
    obtain ⟨hy, hrest⟩ := pairwise_cons.mp h
    rcases le_or_gt t y.1 with hlive | hdone
    · exact ⟨[], y :: rest, rfl, by simp,
        forall_mem_cons.mpr ⟨hlive, fun x hx => hlive.trans (hy x hx)⟩⟩
    · obtain ⟨done, live, rfl, hd, hl⟩ := ih hrest
      exact ⟨y :: done, live, rfl, forall_mem_cons.mpr ⟨hdone, hd⟩, hl⟩

structure Queued (states : List (ℚ × Nat)) : Prop where
  positive : ∀ x ∈ states, 0 < x.1
  front : Ascends states.dropLast

/-- A scan that goes through is right, wherever the last entry belongs. -/
theorem Queued.lasts (h : Queued states) (hscan : runsShort curRem 0 states = false) :
    Lasts curRem states := by
  intro t ht hrun
  rw [runsShort_eq_false_iff] at hscan
  obtain rfl | ⟨front, z, rfl⟩ := states.eq_nil_or_concat'
  · cases hrun
  have hfront : Ascends front := by simpa using h.front
  obtain ⟨done, live, rfl, hdone, hlive⟩ := hfront.split t
  obtain ⟨hd₁, hd₂⟩ := of_all_done hdone
  obtain ⟨hl₁, hl₂⟩ := of_all_live hlive
  simp only [freeAt, liveAt_append, doneAt_append, hd₁, hd₂, hl₁] at hrun ⊢
  -- the first entry that runs to `t` is the one to look at; the last one if no other does
  cases live with
  | nil =>
    have hz : t ≤ z.1 := by
      by_contra hdone
      simp [liveAt, hdone] at hrun
    obtain ⟨hz₁, hz₂⟩ := of_all_live (forall_mem_singleton.mpr hz)
    have hlast := hscan done z [] (by simp)
    rw [hz₁]
    push_cast [length_nil, length_singleton] at hlast ⊢
    linarith
  | cons y live =>
    have hfirst := hscan done y (live ++ [z]) (by simp)
    have hy := hlive y mem_cons_self
    have hmore : t * (live.length + 2) ≤ y.1 * (live.length + 2) := by gcongr
    rcases le_or_gt t z.1 with hz | hz
    · obtain ⟨hz₁, hz₂⟩ := of_all_live (forall_mem_singleton.mpr hz)
      rw [hz₁]
      push_cast [length_append, length_cons, length_nil] at hfirst ⊢
      linarith
    obtain ⟨hz₁, hz₂⟩ := of_all_done (forall_mem_singleton.mpr hz)
    have hgives : 0 ≤ (([z].map Prod.snd).sum : Nat) := Nat.cast_nonneg _
    rw [hz₁]
    push_cast [length_append, length_cons, length_nil] at hfirst hgives ⊢
    linarith

theorem Ascends.runsShort_eq_false (h : Ascends states) (hpos : ∀ x ∈ states, 0 < x.1)
    (hlasts : Lasts curRem states) : runsShort curRem 0 states = false := by
  rw [runsShort_eq_false_iff]
  rintro before x after rfl
  obtain ⟨-, hafter, -⟩ := pairwise_append.mp h
  have hx : 0 < x.1 := hpos x (by simp)
  obtain ⟨hl₁, hl₂⟩ := of_all_live
    (forall_mem_cons.mpr ⟨le_rfl, (pairwise_cons.mp hafter).1⟩)
  have hfree := hlasts x.1 hx.le (by rw [liveAt_append, hl₁, length_cons]; omega)
  have hdone : (doneAt before x.1 : ℚ) ≤ (before.map Prod.snd).sum := Nat.cast_le.mpr (doneAt_le)
  have hlive : (0 : ℚ) ≤ liveAt before x.1 := Nat.cast_nonneg _
  rw [freeAt, liveAt_append, doneAt_append, hl₁, hl₂] at hfree
  push_cast [length_cons] at hfree
  have hmore : 0 ≤ x.1 * liveAt before x.1 := mul_nonneg hx.le hlive
  linarith

/-! ## The insertion -/

theorem insert_split (x : ℚ × Nat) (states : List (ℚ × Nat)) : ∃ before after,
    states = before ++ after ∧ states.insertIdx (insertPos x.1 states) x = before ++ x :: after ∧
    (∀ y ∈ before, y.1 < x.1) ∧ (after = [] → before = []) ∧
    ∀ y rest, after = y :: rest → x.1 ≤ y.1 ∨ rest = [] := by
  induction states with
  | nil => exact ⟨[], [], rfl, rfl, by simp⟩
  | cons y rest ih =>
    cases rest with
    | nil => exact ⟨[], [y], rfl, rfl, by simp⟩
    | cons z rest =>
      by_cases hle : x.1 ≤ y.1
      · refine ⟨[], y :: z :: rest, rfl, by simp [insertPos, hle], by simp, by simp, ?_⟩
        rintro _ _ ⟨⟩
        exact .inl hle
      obtain ⟨before, after, hsplit, hins, hbefore, hnil, hafter⟩ := ih
      refine ⟨y :: before, after, by rw [hsplit]; rfl, ?_,
        forall_mem_cons.mpr ⟨not_le.mp hle, hbefore⟩, ?_, hafter⟩
      · rw [insertPos, if_neg hle, insertIdx_succ_cons, hins]
        · rfl
        · simp
      · intro hempty
        rw [hempty, hnil hempty] at hsplit
        cases hsplit

theorem Ascends.between (h : Ascends (before ++ after)) (hbefore : ∀ y ∈ before, y.1 ≤ x.1)
    (hafter : ∀ y ∈ after.head?, x.1 ≤ y.1) : Ascends (before ++ x :: after) := by
  obtain ⟨h₁, h₂, h₁₂⟩ := pairwise_append.mp h
  have hall : ∀ y ∈ after, x.1 ≤ y.1 := by
    cases after with
    | nil => simp
    | cons z rest =>
      have hz : x.1 ≤ z.1 := hafter z rfl
      exact forall_mem_cons.mpr ⟨hz, fun y hy => hz.trans ((pairwise_cons.mp h₂).1 y hy)⟩
  refine pairwise_append.mpr ⟨h₁, pairwise_cons.mpr ⟨hall, h₂⟩, fun y hy => ?_⟩
  exact forall_mem_cons.mpr ⟨hbefore y hy, h₁₂ y hy⟩

theorem Queued.insert (h : Queued states) (hx : 0 < x.1) :
    Queued (states.insertIdx (insertPos x.1 states) x) := by
  obtain ⟨before, after, rfl, hins, hbefore, hnil, hafter⟩ := insert_split x states
  rw [hins]
  constructor
  · intro y hy
    obtain hy | hy | hy := (by simpa using hy : y ∈ before ∨ y = x ∨ y ∈ after)
    · exact h.positive y (mem_append_left _ hy)
    · exact hy ▸ hx
    · exact h.positive y (mem_append_right _ hy)
  cases after with
  | nil =>
    rw [hnil rfl]
    exact List.Pairwise.nil
  | cons y rest =>
    have hfront := h.front
    rw [dropLast_append_of_ne_nil (by simp)] at hfront ⊢
    refine hfront.between (fun z hz => (hbefore z hz).le) ?_
    -- the last entry may be too small for its place, but it is not in front
    obtain hle | rfl := hafter y rest rfl
    · cases rest <;> simp [hle]
    · simp

theorem Ascends.insert (h : Ascends states) (hbelow : states = [] ∨ ∃ y ∈ states, x.1 ≤ y.1) :
    Ascends (states.insertIdx (insertPos x.1 states) x) := by
  obtain ⟨before, after, rfl, hins, hbefore, hnil, hafter⟩ := insert_split x states
  rw [hins]
  refine h.between (fun z hz => (hbefore z hz).le) fun y hy => ?_
  obtain ⟨rest, rfl⟩ := head?_eq_some_iff.mp hy
  obtain hle | rfl := hafter y rest rfl
  · exact hle
  obtain hempty | ⟨z, hz, hle⟩ := hbelow
  · simp at hempty
  obtain hz | hz := mem_append.mp hz
  · exact absurd hle (not_le.mpr (hbefore z hz))
  · exact mem_singleton.mp hz ▸ hle

/-! ## The calls of a pass -/

/-- One call, with the prefill delayer's verdict; nothing is left after an assertion. -/
def ignoreEosCall (cfg : AdderConfig) (a : PrefillAdder H B) (call : WaitingReq × Bool) :
    Option (PrefillAdder H B) :=
  ((a.addOneReqIgnoreEos cfg call.1 call.2).toOption).map Prod.fst

/-- The request does not have more tokens left than everything in a list that is not empty. -/
def NotNewMax (a : PrefillAdder H B) (call : WaitingReq × Bool) : Prop :=
  ∀ states ∈ a.reqStates, ∀ x ∈ waitingState a.newTokenRatio call.1,
    states = [] ∨ ∃ y ∈ states, x.1 ≤ y.1

instance (a : PrefillAdder H B) (call : WaitingReq × Bool) : Decidable (a.NotNewMax call) :=
  inferInstanceAs (Decidable (∀ states ∈ a.reqStates, ∀ x ∈ waitingState a.newTokenRatio call.1,
    states = [] ∨ ∃ y ∈ states, x.1 ≤ y.1))

/-- What the loop has to go by once the request's own input is taken. -/
def simulatedRem (cfg : AdderConfig) (a : PrefillAdder H B) (r : WaitingReq) : ℚ :=
  ((a.curRemTokens - ceilPagedTokens cfg r.candExtendInputLen : Int) : ℚ)

theorem reqState_positive {ratio : ℚ} {o n m : Nat} {e : Bool}
    (h : reqState ratio o n m e = some x) : 0 < x.1 := by
  simp only [reqState] at h
  generalize hleft : (m : ℚ) * _ - _ = left at h
  split at h
  · cases h
  · rename_i hpos
    cases h
    exact not_le.mp hpos

theorem statesWith_first (h : a.reqStates = none) :
    (∀ x ∈ a.statesWith r, 0 < x.1) ∧ Ascends (a.statesWith r) := by
  rw [statesWith, h]
  constructor
  · intro x hx
    simp only [mem_mergeSort, mem_append, Option.mem_toList, mem_filterMap] at hx
    obtain (hx | ⟨_, -, hx⟩) | ⟨_, -, hx⟩ := hx <;> exact reqState_positive hx
  refine (pairwise_mergeSort ?_ ?_ _).imp of_decide_eq_true
  · intro x y z hxy hyz
    exact decide_eq_true ((of_decide_eq_true hxy).trans (of_decide_eq_true hyz))
  · intro x y
    simpa using le_total x.1 y.1

theorem Ascends.queued (h : Ascends states) (hpos : ∀ x ∈ states, 0 < x.1) : Queued states :=
  ⟨hpos, h.sublist states.dropLast_sublist⟩

theorem queued_statesWith (h : ∀ states ∈ a.reqStates, Queued states) :
    Queued (a.statesWith r) := by
  cases hs : a.reqStates with
  | none => exact (statesWith_first hs).2.queued (statesWith_first hs).1
  | some states =>
    rw [statesWith, hs]
    cases hx : waitingState a.newTokenRatio r with
    | none => exact h states hs
    | some x => exact (h states hs).insert (reqState_positive hx)

theorem ascends_statesWith (h : ∀ states ∈ a.reqStates, Ascends states)
    (hmax : a.NotNewMax (r, allow)) : Ascends (a.statesWith r) := by
  cases hs : a.reqStates with
  | none => exact (statesWith_first hs).2
  | some states =>
    rw [statesWith, hs]
    cases hx : waitingState a.newTokenRatio r with
    | none => exact h states hs
    | some x => exact (h states hs).insert (hmax states hs x hx)

theorem addOneReqIgnoreEos_states {res : AddReqResult}
    (hrun : a.addOneReqIgnoreEos cfg r allow = .ok (a', res)) :
    (a'.reqStates = a.reqStates ∨ a'.reqStates = some (a.statesWith r)) ∧
      (a'.canRunList = a.canRunList ∨
        runsShort (a.simulatedRem cfg r) 0 (a.statesWith r) = false) := by
  simp only [addOneReqIgnoreEos] at hrun
  split at hrun
  · cases hrun
    exact ⟨.inl rfl, .inl rfl⟩
  split at hrun
  · cases hrun
    exact ⟨.inr rfl, .inl rfl⟩
  rename_i hscan
  refine ⟨.inr ?_, .inr (Bool.eq_false_iff.mpr hscan)⟩
  (repeat' split at hrun) <;> cases hrun <;> rfl

theorem ignoreEosCall_states {call : WaitingReq × Bool}
    (hcall : ignoreEosCall cfg a call = some a') :
    a'.reqStates = a.reqStates ∨ a'.reqStates = some (a.statesWith call.1) := by
  rw [ignoreEosCall] at hcall
  cases hrun : a.addOneReqIgnoreEos cfg call.1 call.2 with
  | error e => simp [hrun, Except.toOption] at hcall
  | ok out =>
    rw [hrun] at hcall
    cases hcall
    exact (addOneReqIgnoreEos_states hrun).1

theorem run_states {P : List (ℚ × Nat) → Prop} {guard : PrefillAdder H B → WaitingReq × Bool → Prop}
    {start : PrefillAdder H B} {calls : List (WaitingReq × Bool)} (hstart : start.reqStates = none)
    (hstep : ∀ (a : PrefillAdder H B) call, (∀ states ∈ a.reqStates, P states) → guard a call →
      P (a.statesWith call.1)) (hguard : Guarded (ignoreEosCall cfg) guard start calls)
    (hrun : runFrom (ignoreEosCall cfg) start calls = some a) :
    ∀ states ∈ a.reqStates, P states := by
  refine runFrom_invariant (I := fun a => ∀ states ∈ a.reqStates, P states) ?_ ?_ hguard hrun
  · intro a call a' h hg hcall
    obtain heq | heq := ignoreEosCall_states hcall <;> rw [heq]
    · exact h
    · rintro _ ⟨⟩
      exact hstep a call h hg
  · rw [hstart]
    exact fun _ h => nomatch h

/-- After any calls, an admitted request leaves everyone more than the reserve.  As long as
no call brings a new largest entry, the list is sorted and the loop turns a request away only
if someone would be left with less. -/
theorem ignoreEos_queue {start : PrefillAdder H B} {calls : List (WaitingReq × Bool)} {allow : Bool}
    {res : AddReqResult} (hstart : start.reqStates = none)
    (hrun : runFrom (ignoreEosCall cfg) start calls = some a)
    (hcall : a.addOneReqIgnoreEos cfg r allow = .ok (a', res)) :
    (a'.canRunList ≠ a.canRunList → Lasts (a.simulatedRem cfg r) (a.statesWith r)) ∧
    (Guarded (ignoreEosCall cfg) NotNewMax start calls → a.NotNewMax (r, allow) →
      Ascends (a.statesWith r) ∧ (runsShort (a.simulatedRem cfg r) 0 (a.statesWith r) = true ↔
        ¬ Lasts (a.simulatedRem cfg r) (a.statesWith r))) := by
  have hqueued : Queued (a.statesWith r) := queued_statesWith <|
    run_states hstart (fun _ _ h _ => queued_statesWith h)
      (guarded_of_forall (fun _ _ => trivial) start calls) hrun
  constructor
  · intro hadmitted
    exact hqueued.lasts ((addOneReqIgnoreEos_states hcall).2.resolve_left hadmitted)
  intro hguard hmax
  have hsorted : Ascends (a.statesWith r) := ascends_statesWith
    (run_states hstart (fun _ _ h hmax => ascends_statesWith h hmax) hguard hrun) hmax
  refine ⟨hsorted, fun hshort hlasts => ?_, fun hnot => ?_⟩
  · rw [hsorted.runsShort_eq_false hqueued.positive hlasts] at hshort
    cases hshort
  · by_contra hscan
    exact hnot (hqueued.lasts (Bool.eq_false_iff.mpr hscan))

/-- Ten pages of 64 tokens, and no prefix cache. -/
def uncachedConfig : AdderConfig :=
  { pagedConfig with cache := { pagedConfig.cache with disable := true } }

def uncachedPass : PrefillAdder Unit Unit := init uncachedConfig tenLargePages [] 1 16384 none 0

def ignoringReq (originLen maxNewTokens : Nat) : WaitingReq :=
  { freshReq originLen 0 maxNewTokens with ignoreEos := true }

def AfterFirst (a : PrefillAdder Unit Unit) : Prop :=
  runFrom (ignoreEosCall uncachedConfig) uncachedPass [(ignoringReq 128 10, true)] = some a

theorem exists_afterFirst : ∃ a, AfterFirst a ∧ a.NotNewMax (ignoringReq 64 5, true) ∧
    a.statesWith (ignoringReq 64 250) = [(250, 64), (10, 128)] ∧
    a.simulatedRem uncachedConfig (ignoringReq 64 250) = 384 ∧
    okAnd (a.addOneReqIgnoreEos uncachedConfig (ignoringReq 64 250) true)
      (·.2 = .noToken) = true := by
  change ∃ a ∈ runFrom (ignoreEosCall uncachedConfig) uncachedPass [(ignoringReq 128 10, true)], _
  decide +kernel

theorem ignoreEos_queue_smaller : ∃ a, AfterFirst a ∧ Ascends (a.statesWith (ignoringReq 64 5)) ∧
    (runsShort (a.simulatedRem uncachedConfig (ignoringReq 64 5)) 0
        (a.statesWith (ignoringReq 64 5)) = true ↔
      ¬ Lasts (a.simulatedRem uncachedConfig (ignoringReq 64 5))
        (a.statesWith (ignoringReq 64 5))) := by
  obtain ⟨a, hrun, hmax, -⟩ := exists_afterFirst
  obtain ⟨a', res, hcall⟩ := @addOneReqIgnoreEos_ok (ignoringReq 64 5) _ _ uncachedConfig a true rfl
  exact ⟨a, hrun, (ignoreEos_queue rfl hrun hcall).2 (by decide +kernel) hmax⟩

/-- A request with more tokens left than the one before it is put in front of that one and
turned away, although both would have room to the end. -/
theorem new_max_misplaced : ∃ a a', AfterFirst a ∧ ¬ Ascends (a.statesWith (ignoringReq 64 250)) ∧
    a.addOneReqIgnoreEos uncachedConfig (ignoringReq 64 250) true = .ok (a', .noToken) ∧
    Lasts (a.simulatedRem uncachedConfig (ignoringReq 64 250))
      (a.statesWith (ignoringReq 64 250)) := by
  obtain ⟨a, hrun, -, hstates, hrem, hcall⟩ := exists_afterFirst
  obtain ⟨⟨a', res⟩, hcall, hres⟩ := exists_of_okAnd hcall
  cases of_decide_eq_true hres
  refine ⟨a, a', hrun, ?_, hcall, ?_⟩ <;> rw [hstates]
  · rw [Ascends]
    decide +kernel
  rw [hrem]
  have hfront : Ascends [(10, 128)] := pairwise_singleton ..
  have hqueued : Queued [(10, 128), (250, 64)] := ⟨by decide +kernel, hfront⟩
  exact (hqueued.lasts (by decide +kernel)).perm (List.Perm.swap ..)

end SparkInfer.Sched.PrefillAdder
