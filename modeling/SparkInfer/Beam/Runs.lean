import SparkInfer.Beam.Launch

/-!
# Runs of a beam search group

Launches and commits come in any order, so a commit may lag behind; other requests
take and give slots and rows in between.
-/

namespace SparkInfer.Beam

open Lib.Table Multiset State

inductive Event
  | prefill (cached : List Slot) (final : Bool)
  | launch (tick : ℕ) (parentIdx : Option (List ℕ))
  | commitPrefill (upToTick : Option ℕ) (v : Verdict)
  | commitDecode (tick : ℕ) (v : Verdict)
  | retractDecode
  | retractAll
  | abortQueued

def State.apply (s : State) : Event → Option State
  | .prefill cached final => s.prefill cached final
  | .launch tick parentIdx => s.launch tick parentIdx
  | .commitPrefill upToTick v => s.commitPrefill upToTick v
  | .commitDecode tick v => s.commitDecode tick v
  | .retractDecode => s.retractDecode
  | .retractAll => s.retractAll
  | .abortQueued => s.abortQueued

/-- The selection chooses parents among the rows. -/
def Event.Valid (s : State) : Event → Prop
  | .launch _ parentIdx => s.ValidParents parentIdx
  | _ => True

structure Start (s : State) : Prop where
  width : 0 < s.group.beamWidth
  slots : (s.freeSlots ++ s.otherSlots).Nodup
  rows : (s.freeRows ++ s.otherRows).Nodup
  group : s.group = ⟨s.group.beamWidth, s.group.promptLen, 0, false, false, none, none, [], 0⟩
  waits : s.kv.reqPoolIdx = none
  history : s.outputLen = 0 ∧ s.granted = [] ∧ s.returned = []

/-- Other requests and the tree take and give slots and rows, and write their rows. -/
structure Outside (s s' : State) : Prop where
  slots : (↑s'.freeSlots + ↑s'.otherSlots : Multiset Slot) = ↑s.freeSlots + ↑s.otherSlots
  rows : (↑s'.freeRows + ↑s'.otherRows : Multiset Row) = ↑s.freeRows + ↑s.otherRows
  table : ∀ r ∈ s.ownRows, s'.reqToToken r = s.reqToToken r
  leader : s'.kv = s.kv ∧ s'.outputLen = s.outputLen
  group : s'.group = s.group
  history : s'.granted = s.granted ∧ s'.returned = s.returned

inductive Reach (ok : State → Event → Prop) : State → Prop
  | start {s : State} (h : Start s) : Reach ok s
  | event {s s' : State} {e : Event} (h : Reach ok s) (hok : ok s e) (hvalid : e.Valid s)
      (hrun : s.apply e = some s') : Reach ok s'
  | outside {s s' : State} (h : Reach ok s) (hrun : Outside s s') : Reach ok s'

/-- A leader with member rows is retracted by `retract_decode` only. -/
def Careful (s : State) : Event → Prop
  | .retractAll => s.group.memberRows = none
  | _ => True

section

variable {s s' : State} {ok : State → Event → Prop}

theorem Start.sound (h : Start s) : Sound s := by
  obtain ⟨hout, hgranted, hreturned⟩ := h.history
  have hall : s.group.allRows = none := by rw [h.group]
  have hpending : s.group.pendingOrphans = [] := by rw [h.group]
  have hown : s.ownSlots = 0 := by
    rw [ownSlots, leaderSlots, beamSlots, stagedSlots, h.waits, hall, hpending]
    rfl
  have hrows : s.ownRows = 0 := by
    rw [ownRows, h.waits, h.group]
    rfl
  refine ⟨⟨⟨h.width, fun row hrow => ?_, fun _ => by rw [h.group], fun rows hsome => ?_, fun _ => ?_⟩,
    ⟨?_, ?_⟩, ⟨?_, absurd hall⟩, ?_⟩, by rw [h.group], fun _ => h.waits,
    fun _ => hpending⟩
  · cases h.waits.symm.trans hrow
  · cases hall.symm.trans hsome
  · exact ⟨hall, hpending, by rw [h.group], hout⟩
  · rw [hown, add_zero, coe_add]
    exact h.slots
  · rw [hown, hgranted, returnedSlots, hreturned]
    rfl
  · rw [hreturned, h.group]
    rfl
  · rw [RowsKept, hrows, add_zero, coe_add]
    exact h.rows

theorem Sound.outside (h : Sound s) (ho : Outside s s') : Sound s' := by
  obtain ⟨hkv, hout⟩ := ho.leader
  obtain ⟨hgranted, hreturned⟩ := ho.history
  have hleader : s'.leaderSlots = s.leaderSlots := by
    rw [leaderSlots, leaderSlots, leaderEnd, hkv, ho.group]
    cases hrow : s.kv.reqPoolIdx with
    | none => rfl
    | some row =>
      dsimp only
      congr 1
      refine window_congr fun r hr p _ _ => congrFun (ho.table r ?_) p
      rw [ownRows, hrow, mem_singleton.mp hr]
      exact mem_add.mpr (.inl (mem_singleton_self row))
  have hbeam : s'.beamSlots = s.beamSlots := by
    rw [beamSlots, beamSlots, ho.group, hkv]
    cases hall : s.group.allRows with
    | none => rfl
    | some rows =>
      obtain ⟨row, members, hrow, hmembers, hcons, -⟩ := h.shape.rows rows hall
      dsimp only
      congr 1
      refine window_congr fun r hr p _ _ => congrFun (ho.table r ?_) p
      rw [ownRows, hrow, hmembers]
      rw [hcons, List.mem_cons] at hr
      exact mem_add.mpr (hr.imp (mem_singleton.mpr) fun hm => hm)
  have hown : s'.ownSlots = s.ownSlots := by
    rw [ownSlots, hleader, hbeam, stagedSlots, ho.group]
    rfl
  have hrows : s'.ownRows = s.ownRows := by
    rw [ownRows, ownRows, hkv, ho.group]
  refine ⟨⟨⟨?_, ?_, ?_, ?_, ?_⟩, ⟨?_, ?_⟩, ⟨?_, ?_⟩, ?_⟩, ?_, ?_, ?_⟩
  · exact ho.group ▸ h.shape.width
  · rw [hkv, ho.group]
    exact h.shape.lengths
  · exact ho.group ▸ h.shape.bare
  · rw [hkv, ho.group]
    exact h.shape.rows
  · rw [ho.group, hout]
    exact h.shape.fresh
  · rw [ho.slots, hown]
    exact h.kept.slots.pool
  · rw [hgranted, returnedSlots, hreturned, hown]
    exact h.kept.slots.ledger
  · rw [ho.group, hreturned]
    exact h.kept.counts.freed
  · rw [hkv, hbeam, stagedSlots, ho.group]
    exact h.kept.counts.held
  · rw [RowsKept, ho.rows, hrows]
    exact h.kept.rows
  · exact ho.group ▸ h.done
  · rw [ho.group, hkv]
    exact h.ended
  · exact ho.group ▸ h.idle

theorem Sound.apply {e : Event} (h : Sound s) (hcare : Careful s e) (hvalid : e.Valid s)
    (hrun : s.apply e = some s') : Sound s' := by
  cases e with
  | prefill cached final => exact h.prefill hrun
  | launch tick parentIdx => exact h.launch hvalid hrun
  | commitPrefill upToTick v => exact h.commitPrefill hrun
  | commitDecode tick v => exact h.commitDecode hrun
  | retractDecode => exact h.retractDecode hrun
  | retractAll => exact h.retractAll hcare hrun
  | abortQueued => exact h.abortQueued hrun

theorem Reach.sound (h : Reach Careful s) : Sound s := by
  induction h with
  | start h => exact h.sound
  | event _ hcare hvalid hrun ih => exact ih.apply hcare hvalid hrun
  | outside _ hrun ih => exact ih.outside hrun

def State.extraHeld (s : State) : ℤ :=
  (s.beamSlots.length + s.stagedSlots.length : ℤ) -
    if s.group.allRows = none then 0 else (s.kv.kvAllocatedLen : ℤ) - s.group.promptLen

theorem Sound.extraUncachedTokens_eq (h : Sound s) : s.extraUncachedTokens = s.extraHeld := by
  rw [extraUncachedTokens, extraHeld]
  by_cases hall : s.group.allRows = none
  · have hstaged : s.stagedSlots = [] := by rw [stagedSlots, h.idle hall, List.flatMap_nil]
    rw [if_pos hall, if_pos hall, beamSlots_of_bare hall, hstaged]
    rfl
  obtain ⟨rows, hsome⟩ := Option.ne_none_iff_exists'.mp hall
  obtain ⟨row, -, hrow, -⟩ := h.shape.rows rows hsome
  obtain ⟨-, -, hprompt⟩ := h.shape.lengths row hrow
  have hheld := congrArg (fun n : ℕ => (n : ℤ)) (h.kept.counts.held hall)
  push_cast [Nat.cast_sub hprompt] at hheld
  rw [if_neg hall, if_neg hall]
  dsimp only
  omega

/-- In every run in which no group with member rows is retracted with its leader
alone: what was given out and not given back is named by the leader's row, named by
the group's rows or staged, each slot at one place and none of them free; a group
that has ended has given everything back once; and the counters are exact. -/
theorem beam_slots_freed_once (h : Reach Careful s) :
    s.granted.Perm (s.returnedSlots ++ (s.leaderSlots ++ s.beamSlots ++ s.stagedSlots)) ∧
    (s.freeSlots ++ s.otherSlots ++ (s.leaderSlots ++ s.beamSlots ++ s.stagedSlots)).Nodup ∧
    (s.group.retired = true → s.granted.Perm s.returnedSlots) ∧
    s.group.slotsFreed = s.returned.countP (fun e => decide (e.1 = .orphan)) ∧
    s.extraUncachedTokens = s.extraHeld := by
  have hs := h.sound
  have hown : s.ownSlots = ↑(s.leaderSlots ++ s.beamSlots ++ s.stagedSlots) := by
    rw [ownSlots, coe_add, coe_add]
  have hledger := hs.kept.slots.ledger
  have hpool := hs.kept.slots.pool
  refine ⟨?_, ?_, fun hret => ?_, hs.kept.counts.freed, hs.extraUncachedTokens_eq⟩
  · rw [hown] at hledger
    exact coe_eq_coe.mp hledger
  · rw [hown] at hpool
    exact coe_nodup.mp hpool
  have hrow := hs.ended hret
  have hall := hs.shape.bare_of_none (.inl hrow)
  have hnone : s.ownSlots = 0 := by
    rw [ownSlots, leaderSlots, beamSlots, stagedSlots, hrow, hall, hs.idle hall]
    rfl
  rw [hnone, add_zero] at hledger
  exact coe_eq_coe.mp hledger

/-! ## Two runs of a group of two beams -/

def State.after (s : State) (e : Event) : State := (s.apply e).getD s

theorem Reach.after (h : Reach ok s) (e : Event) (hok : ok s e)
    (hvalid : e.Valid s) (hrun : (s.apply e).isSome = true) : Reach ok (s.after e) := by
  obtain ⟨s', hs'⟩ := Option.isSome_iff_exists.mp hrun
  rw [State.after, hs']
  exact .event h hok hvalid hs'

def twoBeams : State where
  freeSlots := [1, 2, 3, 4, 5, 6]
  freeRows := [1, 2, 3]
  reqToToken := fun _ _ => 0
  kv := ⟨none, 0, 0, 0⟩
  outputLen := 0
  group := ⟨2, 1, 0, false, false, none, none, [], 0⟩
  otherSlots := []
  otherRows := []
  granted := []
  returned := []

theorem twoBeams_start : Start twoBeams :=
  ⟨by decide, by decide, by decide, rfl, rfl, rfl, rfl, rfl⟩

def twoTicks : State :=
  (((twoBeams.after (.prefill [] false)).after (.launch 1 (some [0, 0]))).after
    (.launch 2 (some [0, 1]))).after (.commitDecode 1 .goesOn)

theorem valid_pair {i j : ℕ} (hwidth : s.group.beamWidth = 2) (hi : i < 2) (hj : j < 2) (tick : ℕ) :
    (Event.launch tick (some [i, j])).Valid s := by
  intro ps hps
  cases hps
  rw [hwidth]
  refine ⟨rfl, fun n hn => ?_⟩
  rcases List.mem_cons.mp hn with rfl | hn
  · exact hi
  · rwa [mem_singleton.mp hn]

theorem twoTicks_reach (hprefill : ∀ s c f, ok s (.prefill c f))
    (hlaunch : ∀ s t p, ok s (.launch t p)) (hcommit : ∀ s t v, ok s (.commitDecode t v)) :
    Reach ok twoTicks := by
  have h₁ := (Reach.start twoBeams_start).after (.prefill [] false) (hprefill ..) trivial (by decide)
  have h₂ := h₁.after (.launch 1 (some [0, 0])) (hlaunch ..)
    (valid_pair (by decide) (by decide) (by decide) 1) (by decide)
  have h₃ := h₂.after (.launch 2 (some [0, 1])) (hlaunch ..)
    (valid_pair (by decide) (by decide) (by decide) 2) (by decide)
  exact h₃.after (.commitDecode 1 .goesOn) (hcommit ..) trivial (by decide)

/-- The commit of the first tick has freed its orphan; the second one finishes the
group. -/
theorem beam_slots_freed_once_lagging :
    ∃ s, Reach Careful s ∧ s.group.retired = true ∧ s.group.slotsFreed = 1 ∧
      s.granted = [1, 2, 3, 4, 5] ∧ s.granted.Perm s.returnedSlots := by
  have h₀ : Reach Careful twoTicks :=
    twoTicks_reach (fun _ _ _ => trivial) (fun _ _ _ => trivial) fun _ _ _ => trivial
  have h := h₀.after (.commitDecode 2 .finishes) trivial trivial (by decide)
  exact ⟨_, h, by decide, by decide, by decide, (beam_slots_freed_once h).2.2.1 (by decide)⟩

/-- A pause retracts the leader alone: the member row still names a slot of the group
that is free now; and when the waiting request is then aborted the group ends without
the member's own slot having been given back. -/
theorem beam_slots_lost_by_pause :
    (∃ s, Reach (fun _ _ => True) s ∧ s.group.memberRows = some [2] ∧ s.reqToToken 2 1 = 2 ∧
      2 ∈ s.granted ∧ 2 ∈ s.freeSlots) ∧
    ∃ s, Reach (fun _ _ => True) s ∧ s.group.retired = true ∧ 5 ∈ s.granted ∧ 5 ∉ s.returnedSlots := by
  have h₀ : Reach (fun _ _ => True) twoTicks :=
    twoTicks_reach (fun _ _ _ => trivial) (fun _ _ _ => trivial) fun _ _ _ => trivial
  have h₁ := h₀.after (.commitDecode 2 .goesOn) trivial trivial (by decide)
  have h₂ := h₁.after .retractAll trivial trivial (by decide)
  have h₃ := h₂.after .abortQueued trivial trivial (by decide)
  exact ⟨⟨_, h₂, by decide, by decide, by decide, by decide⟩, _, h₃, by decide, by decide, by decide⟩

end

end SparkInfer.Beam
