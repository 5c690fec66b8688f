import SparkInfer.Beam.Group
import Mathlib.Algebra.Order.Group.Multiset
import Mathlib.Tactic.Abel

/-!
# Where the slots of a group are

Every slot given out for the group and not given back is in one of three places:
the leader's own part of its row, the rows of the group above the prompt, or a
mapping that waits for its orphans to be collected.  Each operation moves slots
between these places and the allocator.
-/

namespace SparkInfer.Beam

open Lib.Table List Multiset Option State StagedOrphans Bool

variable {v : Verdict} {s s' : State}

namespace State

variable (s : State)

def beamSlots : List Slot :=
  match s.group.allRows with
  | none => []
  | some rows => unique (window s.reqToToken rows s.group.promptLen s.kv.kvAllocatedLen)

variable {s} in
theorem beamSlots_of_bare (h : s.group.allRows = none) : s.beamSlots = [] := by
  rw [beamSlots, h]

def stagedSlots : List Slot :=
  s.group.pendingOrphans.flatMap slots

def leaderEnd : ℕ :=
  if s.group.allRows = none then s.kv.kvAllocatedLen else s.group.promptLen

/-- What the leader's row names above the cached prefix and outside the group's part. -/
def leaderSlots : List Slot :=
  match s.kv.reqPoolIdx with
  | none => []
  | some row => (window s.reqToToken [row] s.kv.cacheProtectedLen s.leaderEnd).flatten

def ownSlots : Multiset Slot :=
  ↑s.leaderSlots + ↑s.beamSlots + ↑s.stagedSlots

def ownRows : Multiset Row :=
  ↑s.kv.reqPoolIdx.toList + ↑(s.group.memberRows.getD [])

def returnedSlots : List Slot := s.returned.map (·.2)

end State

/-- Nothing is at two places, and what was given out and not given back is somewhere. -/
structure SlotsKept (s : State) : Prop where
  pool : (↑s.freeSlots + ↑s.otherSlots + s.ownSlots : Multiset Slot).Nodup
  ledger : (s.granted : Multiset Slot) = ↑s.returnedSlots + s.ownSlots

/-- The counter of freed slots counts the orphans given back; with what the group
holds it makes up what was allocated for its rows. -/
structure CountsKept (s : State) : Prop where
  freed : s.group.slotsFreed = s.returned.countP fun e => decide (e.1 = .orphan)
  held : s.group.allRows ≠ none → s.group.beamWidth * (s.kv.kvAllocatedLen - s.group.promptLen) =
    s.group.slotsFreed + s.beamSlots.length + s.stagedSlots.length

def RowsKept (s : State) : Prop :=
  (↑s.freeRows + ↑s.otherRows + s.ownRows : Multiset Row).Nodup

/-- The fields of the group and the leader fit together. -/
structure Shape (s : State) : Prop where
  width : 0 < s.group.beamWidth
  lengths : ∀ row, s.kv.reqPoolIdx = some row → s.kv.kvCommittedLen = s.kv.kvAllocatedLen ∧
    s.kv.cacheProtectedLen ≤ s.group.promptLen ∧ s.group.promptLen ≤ s.kv.kvAllocatedLen
  bare : s.group.allRows = none → s.group.memberRows = none
  rows : ∀ rows, s.group.allRows = some rows → ∃ row members, s.kv.reqPoolIdx = some row ∧
    s.group.memberRows = some members ∧ rows = row :: members ∧ rows.length = s.group.beamWidth
  fresh : s.group.numGenerated = 0 → s.group.allRows = none ∧ s.group.pendingOrphans = [] ∧
    s.group.slotsFreed = 0 ∧ s.outputLen = 0

structure Kept (s : State) : Prop where
  slots : SlotsKept s
  counts : CountsKept s
  rows : RowsKept s

structure InOrder (s : State) : Prop where
  shape : Shape s
  kept : Kept s

section Moves

variable {xs : List Slot} {via : Via}

theorem SlotsKept.give (h : SlotsKept s) (hfree : s'.freeSlots = s.freeSlots ++ xs)
    (hother : s'.otherSlots = s.otherSlots) (hgranted : s'.granted = s.granted)
    (hreturned : s'.returned = s.returned ++ xs.map (via, ·))
    (hown : s.ownSlots = s'.ownSlots + ↑xs) : SlotsKept s' where
  pool := by
    convert h.pool using 1
    rw [hfree, hother, hown, ← coe_add]
    abel
  ledger := by
    have hback : s'.returnedSlots = s.returnedSlots ++ xs := by
      rw [returnedSlots, returnedSlots, hreturned, map_append]
      simp
    rw [hgranted, h.ledger, hown, hback, ← coe_add]
    abel

theorem SlotsKept.take (h : SlotsKept s) (hfree : s.freeSlots = xs ++ s'.freeSlots)
    (hother : s'.otherSlots = s.otherSlots) (hgranted : s'.granted = s.granted ++ xs)
    (hreturned : s'.returned = s.returned) (hown : s'.ownSlots = s.ownSlots + ↑xs) :
    SlotsKept s' where
  pool := by
    convert h.pool using 1
    rw [hfree, hother, hown, ← coe_add]
    abel
  ledger := by
    rw [hgranted, ← coe_add, h.ledger, hown, returnedSlots, returnedSlots, hreturned]
    abel

theorem SlotsKept.move (h : SlotsKept s) (hfree : s'.freeSlots = s.freeSlots)
    (hother : s'.otherSlots = s.otherSlots) (hgranted : s'.granted = s.granted)
    (hreturned : s'.returned = s.returned) (hown : s'.ownSlots = s.ownSlots) : SlotsKept s' where
  pool := by
    rw [hfree, hother, hown]
    exact h.pool
  ledger := by
    rw [hgranted, returnedSlots, hreturned, hown]
    exact h.ledger

end Moves

/-! ## Collecting orphans -/

theorem unique_nodup (m : List (List Slot)) : (unique m).Nodup := nodup_dedup _

theorem mem_unique {m : List (List Slot)} {x : Slot} : x ∈ unique m ↔ x ∈ m.flatten :=
  mem_dedup

theorem unique_eq_orphans {old new : List (List Slot)} (hsub : ∀ x ∈ new.flatten, x ∈ old.flatten) :
    (↑(unique old) : Multiset Slot) = ↑(unique new) + ↑(collectOrphanSlots old new) := by
  have hdisj : (unique new).Disjoint (collectOrphanSlots old new) := by
    intro x hx hy
    rw [collectOrphanSlots, mem_filter, decide_eq_true_iff] at hy
    exact hy.2 hx
  rw [coe_add, coe_eq_coe]
  refine (perm_ext_iff_of_nodup (unique_nodup old) ?_).mpr fun x => ?_
  · exact (unique_nodup new).append ((unique_nodup old).filter _) hdisj
  rw [mem_append, collectOrphanSlots, mem_filter, decide_eq_true_iff]
  constructor
  · intro hx
    by_cases hnew : x ∈ unique new
    · exact .inl hnew
    · exact .inr ⟨hx, hnew⟩
  · rintro (hx | hx)
    · exact mem_unique.mpr (hsub x (mem_unique.mp hx))
    · exact hx.1

namespace State

variable (s : State) (upToTick : Option ℕ)

theorem freeStaged_eq (es : List StagedOrphans) : s.freeStaged es = { s with
      freeSlots := s.freeSlots ++ es.flatMap slots
      returned := s.returned ++ (es.flatMap slots).map (Via.orphan, ·)
      group := { s.group with
        slotsFreed := s.group.slotsFreed + (es.flatMap slots).length } } := by
  induction es generalizing s with
  | nil => simp [freeStaged]
  | cons e es ih =>
    rw [freeStaged, ih]
    simp [free, add_assoc]

def due (e : StagedOrphans) : Bool :=
  upToTick.all fun t => decide (e.tick ≤ t)

def reclaimed : List Slot :=
  (s.group.pendingOrphans.filter (due upToTick)).flatMap slots

theorem reclaimOrphans_eq : s.reclaimOrphans upToTick = { s with
      freeSlots := s.freeSlots ++ s.reclaimed upToTick
      returned := s.returned ++ (s.reclaimed upToTick).map (Via.orphan, ·)
      group := { s.group with
        pendingOrphans := s.group.pendingOrphans.filter fun e => !due upToTick e
        slotsFreed := s.group.slotsFreed + (s.reclaimed upToTick).length } } :=
  freeStaged_eq _ _

theorem stagedSlots_eq : (↑s.stagedSlots : Multiset Slot) =
      ↑(s.reclaimOrphans upToTick).stagedSlots + ↑(s.reclaimed upToTick) := by
  rw [reclaimOrphans_eq, coe_add, coe_eq_coe, stagedSlots, stagedSlots, reclaimed, ← flatMap_append]
  refine List.Perm.flatMap_right _ ?_
  exact (filter_append_perm (due upToTick) _).symm.trans perm_append_comm

end State

section Operations

variable {upToTick : Option ℕ}

theorem InOrder.reclaim (h : InOrder s) (upToTick : Option ℕ) :
    InOrder (s.reclaimOrphans upToTick) := by
  have hstaged := s.stagedSlots_eq upToTick
  have hcard := congrArg Multiset.card hstaged
  rw [card_add, coe_card, coe_card, coe_card] at hcard
  rw [s.reclaimOrphans_eq upToTick] at hstaged hcard ⊢
  refine ⟨{ h.shape with fresh := fun hgen => ?_ }, h.kept.slots.give rfl rfl rfl rfl ?_,
    ⟨?_, fun hrows => ?_⟩, h.kept.rows⟩
  · obtain ⟨hall, hpending, hfreed, hout⟩ := h.shape.fresh hgen
    simp only [reclaimed, hpending, filter_nil, hfreed, hall, hout]
    exact ⟨trivial, trivial, rfl, trivial⟩
  · rw [ownSlots, hstaged]
    exact (add_assoc _ _ _).symm
  · simp only [countP_append, List.countP_map]
    rw [← h.kept.counts.freed]
    congr 1
    exact (countP_eq_length.mpr fun _ _ => rfl).symm
  have hheld := h.kept.counts.held hrows
  change s.group.beamWidth * (s.kv.kvAllocatedLen - s.group.promptLen) =
    s.group.slotsFreed + (s.reclaimed upToTick).length + s.beamSlots.length + _
  omega

theorem Shape.bare_of_none (h : Shape s)
    (hnone : s.kv.reqPoolIdx = none ∨ s.group.memberRows = none) : s.group.allRows = none := by
  by_contra hsome
  obtain ⟨rows, hall⟩ := ne_none_iff_exists'.mp hsome
  obtain ⟨row, members, hrow, hmembers, -⟩ := h.rows rows hall
  simp [hrow, hmembers] at hnone

theorem freeMemberRows_eq (h : Shape s) {rows members : List Row} (hall : s.group.allRows = some rows)
    (hmembers : s.group.memberRows = some members) : s.freeMemberRows = { s with
      freeSlots := s.freeSlots ++ s.beamSlots
      freeRows := s.freeRows ++ members
      returned := s.returned ++ s.beamSlots.map (Via.group, ·)
      kv := { s.kv with kvCommittedLen := s.group.promptLen, kvAllocatedLen := s.group.promptLen }
      group := { s.group with memberRows := none, allRows := none } } := by
  obtain ⟨row, -, hrow, -⟩ := h.rows rows hall
  obtain ⟨hcommitted, -, hle⟩ := h.lengths row hrow
  have hbeam : s.beamSlots =
      unique (window s.reqToToken rows s.group.promptLen s.kv.kvAllocatedLen) := by
    rw [beamSlots, hall]
  rw [freeMemberRows, hmembers]
  dsimp only
  by_cases hlt : s.kv.kvAllocatedLen > s.group.promptLen
  · rw [if_pos hlt, hall, hbeam]
    rfl
  have heq : s.kv.kvAllocatedLen = s.group.promptLen := by omega
  have hnil : s.beamSlots = [] := by
    rw [hbeam, heq, unique, window_self]
    rfl
  have hkv : { s.kv with
      kvCommittedLen := s.group.promptLen, kvAllocatedLen := s.group.promptLen } = s.kv := by
    rw [← heq]
    nth_rewrite 1 [← hcommitted]
    rfl
  rw [if_neg hlt, hnil, append_nil, map_nil, append_nil, hkv]
  rfl

theorem InOrder.freeMembers (h : InOrder s) : InOrder s.freeMemberRows ∧
    s.freeMemberRows.group.allRows = none ∧ s.freeMemberRows.group.retired = s.group.retired ∧
      s.freeMemberRows.group.finished = s.group.finished ∧
      s.freeMemberRows.kv.reqPoolIdx = s.kv.reqPoolIdx := by
  cases hall : s.group.allRows with
  | none =>
    rw [freeMemberRows, h.shape.bare hall]
    exact ⟨h, hall, rfl, rfl, rfl⟩
  | some rows =>
    obtain ⟨row, members, hrow, hmembers, -, -⟩ := h.shape.rows rows hall
    rw [freeMemberRows_eq h.shape hall hmembers]
    refine ⟨⟨⟨h.shape.width, fun row' hrow' => ⟨rfl, (h.shape.lengths row' hrow').2.1, le_rfl⟩,
      fun _ => rfl, (fun _ hsome => nomatch hsome), fun hgen => ?_⟩,
      h.kept.slots.give rfl rfl rfl rfl ?_, ⟨?_, absurd rfl⟩, ?_⟩, rfl, rfl, rfl, rfl⟩
    · cases (h.shape.fresh hgen).1.symm.trans hall
    · -- the leader's part ends at the prompt before and after
      simp only [ownSlots, leaderSlots, leaderEnd, hall, if_true, reduceCtorEq, if_false]
      abel
    · simpa [Function.comp_def] using h.kept.counts.freed
    have hrows := h.kept.rows
    rw [RowsKept, ownRows, hmembers] at hrows
    rw [RowsKept, ownRows]
    simp only [hrow, getD_none, getD_some] at hrows ⊢
    rw [← coe_add, coe_nil]
    convert hrows using 1
    abel

theorem releaseKvCache_eq (hshape : Shape s) (hbare : s.group.allRows = none)
    (h : s.releaseKvCache = some s') : ∃ row, s.kv.reqPoolIdx = some row ∧ s' = { s with
        freeSlots := s.freeSlots ++ s.leaderSlots
        freeRows := s.freeRows ++ [row]
        returned := s.returned ++ s.leaderSlots.map (Via.leader, ·)
        kv := { s.kv with reqPoolIdx := none, kvAllocatedLen := 0 } } := by
  obtain ⟨row, hrow, h⟩ := bind_eq_some_iff.mp h
  split at h
  · cases h
  cases h
  have hleader : s.leaderSlots = (window s.reqToToken [row] s.kv.cacheProtectedLen
      s.kv.kvCommittedLen).flatten := by
    rw [leaderSlots, hrow, leaderEnd, if_pos hbare, (hshape.lengths row hrow).1]
  exact ⟨row, hrow, by rw [hleader]; rfl⟩

theorem InOrder.release (h : InOrder s) (hbare : s.group.allRows = none)
    (hrun : s.releaseKvCache = some s') :
    InOrder s' ∧ s'.kv.reqPoolIdx = none ∧ s'.group = s.group := by
  obtain ⟨row, hrow, rfl⟩ := releaseKvCache_eq h.shape hbare hrun
  refine ⟨⟨⟨h.shape.width, (fun _ hsome => nomatch hsome), h.shape.bare, fun rows hall => ?_,
    h.shape.fresh⟩, h.kept.slots.give rfl rfl rfl rfl ?_, ⟨?_, absurd hbare⟩, ?_⟩, rfl, rfl⟩
  · cases hbare.symm.trans hall
  · rw [ownSlots, ownSlots, beamSlots, beamSlots]
    simp only [hbare]
    abel
  · simpa [Function.comp_def] using h.kept.counts.freed
  have hrows := h.kept.rows
  rw [RowsKept, ownRows, hrow] at hrows
  rw [RowsKept, ownRows]
  simp only [toList_some, toList_none] at hrows ⊢
  rw [← coe_add, coe_nil]
  convert hrows using 1
  abel

theorem reclaimOrphans_none : (s.reclaimOrphans none).group.pendingOrphans = [] := by
  rw [reclaimOrphans_eq]
  simp [due]

/-! ## The invariant -/

theorem InOrder.mark (h : InOrder s) (finished retired : Bool) :
    InOrder { s with group := { s.group with finished := finished, retired := retired } } :=
  ⟨{ h.shape with },
    ⟨h.kept.slots.pool, h.kept.slots.ledger⟩, ⟨h.kept.counts.freed, h.kept.counts.held⟩, h.kept.rows⟩

theorem InOrder.reset (h : InOrder s) (hrow : s.kv.reqPoolIdx = none)
    (hbare : s.group.allRows = none) : InOrder s.resetForRetract := by
  have hleader : s.resetForRetract.leaderSlots = s.leaderSlots := by
    rw [leaderSlots, leaderSlots, resetForRetract]
    simp only [hrow]
  have hown : s.resetForRetract.ownSlots = s.ownSlots := by
    rw [ownSlots, hleader]
    rfl
  refine ⟨{ h.shape with lengths := fun row hsome => ?_ },
    h.kept.slots.move rfl rfl rfl rfl hown, ⟨h.kept.counts.freed, absurd hbare⟩,
    h.kept.rows⟩
  have hnone : none = some row := hrow.symm.trans hsome
  cases hnone

/-- The group is in order; when it has ended it has nothing any more. -/
structure Sound (s : State) : Prop extends InOrder s where
  done : s.group.retired = s.group.finished
  ended : s.group.retired = true → s.kv.reqPoolIdx = none
  idle : s.group.allRows = none → s.group.pendingOrphans = []

theorem Sound.reclaim (h : Sound s) (upToTick : Option ℕ) : Sound (s.reclaimOrphans upToTick) := by
  refine ⟨h.toInOrder.reclaim upToTick, ?_, ?_, ?_⟩
  · rw [reclaimOrphans_eq]
    exact h.done
  · rw [reclaimOrphans_eq]
    exact h.ended
  · rw [reclaimOrphans_eq]
    intro hbare
    simp only [h.idle hbare, filter_nil]

theorem InOrder.retire (h : InOrder s) (hlive : s.group.retired = false) :
    InOrder s.retire ∧ s.retire.group.retired = true ∧ s.retire.group.pendingOrphans = [] ∧
      s.retire.group.finished = s.group.finished ∧ s.retire.group.allRows = s.group.allRows ∧
      s.retire.kv = s.kv := by
  have heq : s.retire = { s.reclaimOrphans none with
      group := { (s.reclaimOrphans none).group with retired := true } } := by
    rw [State.retire, hlive]
    rfl
  rw [heq]
  refine ⟨(h.reclaim none).mark _ true, rfl, reclaimOrphans_none, ?_⟩
  rw [reclaimOrphans_eq]
  exact ⟨rfl, rfl, rfl⟩

variable (h : Sound s)
include h

theorem Sound.live {row : Row} (hrow : s.kv.reqPoolIdx = some row) : s.group.retired = false := by
  by_contra hret
  rw [h.ended (not_eq_false _ ▸ hret)] at hrow
  cases hrow

theorem Sound.endGroup (hlive : s.group.retired = false)
    (hrun : s.endGroup = some s') : Sound s' ∧ s'.group.retired = true := by
  have h₁ : InOrder { s with group := { s.group with finished := true } } :=
    h.toInOrder.mark true s.group.retired
  have h₂ := h₁.reclaim none
  have hflags₂ : (reclaimOrphans { s with group := { s.group with finished := true } }
      none).group.retired = false ∧ (reclaimOrphans { s with
        group := { s.group with finished := true } } none).group.finished = true := by
    rw [reclaimOrphans_eq]
    exact ⟨hlive, rfl⟩
  unfold State.endGroup at hrun
  dsimp only at hrun
  generalize reclaimOrphans { s with group := { s.group with finished := true } } none = s₂ at *
  obtain ⟨h₃, hbare₃, hret₃, hfin₃, -⟩ := h₂.freeMembers
  obtain ⟨h₄, hret₄, hpending₄, hfin₄, hall₄, -⟩ := h₃.retire (hret₃.trans hflags₂.1)
  obtain ⟨h', hrow', hgroup'⟩ := h₄.release (hall₄.trans hbare₃) hrun
  refine ⟨⟨h', ?_, fun _ => hrow', fun _ => ?_⟩, ?_⟩
  · rw [hgroup', hret₄, hfin₄, hfin₃, hflags₂.2]
  · rw [hgroup', hpending₄]
  · rw [hgroup', hret₄]

theorem Sound.reclaimed (hlive : ¬s.group.retired = true) (upToTick : Option ℕ) :
    Sound (s.reclaimOrphans upToTick) ∧ (s.reclaimOrphans upToTick).group.retired = false := by
  refine ⟨h.reclaim upToTick, ?_⟩
  rw [reclaimOrphans_eq]
  exact eq_false_iff.mpr hlive

theorem Sound.commitDecode {tick : ℕ} (hrun : s.commitDecode tick v = some s') : Sound s' := by
  unfold State.commitDecode at hrun
  split_ifs at hrun with hlive
  · cases hrun
    exact h
  obtain ⟨hreclaimed, hopen⟩ := h.reclaimed hlive (some tick)
  cases v with
  | aborts | finishes => exact (hreclaimed.endGroup hopen hrun).1
  | goesOn =>
    cases hrun
    exact hreclaimed

theorem Sound.commitPrefill (hrun : s.commitPrefill upToTick v = some s') : Sound s' := by
  unfold State.commitPrefill at hrun
  split_ifs at hrun with hlive
  · cases hrun
    exact h
  obtain ⟨hreclaimed, hopen⟩ := h.reclaimed hlive upToTick
  cases v with
  | aborts => exact (h.endGroup (eq_false_iff.mpr hlive) hrun).1
  | finishes => exact (hreclaimed.endGroup hopen hrun).1
  | goesOn =>
    cases hrun
    exact hreclaimed

omit h in
theorem InOrder.retireGroup (h : InOrder s) (hlive : s.group.retired = false)
    (hrow : s.kv.reqPoolIdx = none) : Sound s.retireGroup := by
  have hmarked := h.mark true s.group.retired
  have heq : s.retireGroup = State.retire { s with group := { s.group with finished := true } } := by
    rw [State.retireGroup, hlive]
    rfl
  obtain ⟨hretired, hret, hpending, hfin, -, hkv⟩ := hmarked.retire hlive
  rw [heq]
  refine ⟨hretired, hret.trans hfin.symm, fun _ => ?_, fun _ => hpending⟩
  rwa [hkv]

theorem Sound.retractDecode (hrun : s.retractDecode = some s') : Sound s' := by
  obtain ⟨s₂, hrelease, hrest⟩ := bind_eq_some_iff.mp hrun
  cases hrest
  obtain ⟨h₁, hbare₁, hret₁, -, hrow₁⟩ := h.toInOrder.freeMembers
  obtain ⟨h₂, hrow₂, hgroup₂⟩ := h₁.release hbare₁ hrelease
  have hreset := h₂.reset hrow₂ (by rw [hgroup₂, hbare₁])
  refine hreset.retireGroup ?_ hrow₂
  -- a retired group has no leader row to release
  obtain ⟨row, hrow, -⟩ := releaseKvCache_eq h₁.shape hbare₁ hrelease
  exact (congrArg BeamGroup.retired hgroup₂).trans (hret₁.trans (h.live (hrow₁.symm.trans hrow)))

theorem Sound.retractAll (hmembers : s.group.memberRows = none)
    (hrun : s.retractAll = some s') : Sound s' := by
  obtain ⟨s₁, hrelease, hrest⟩ := bind_eq_some_iff.mp hrun
  cases hrest
  have hbare := h.shape.bare_of_none (.inr hmembers)
  obtain ⟨h₁, hrow₁, hgroup₁⟩ := h.toInOrder.release hbare hrelease
  have hreset := h₁.reset hrow₁ (by rw [hgroup₁, hbare])
  have hgroup : s₁.resetForRetract.group = s.group := hgroup₁
  refine ⟨hreset, ?_, fun _ => hrow₁, ?_⟩
  · rw [hgroup]
    exact h.done
  · rw [hgroup]
    exact h.idle

theorem Sound.abortQueued (hrun : s.abortQueued = some s') : Sound s' := by
  unfold State.abortQueued at hrun
  split at hrun
  · cases hrun
  rename_i hrow
  cases hrun
  cases hret : s.group.retired with
  | true =>
    rwa [retireGroup, hret]
  | false => exact h.toInOrder.retireGroup hret (not_isSome_iff_eq_none.mp hrow)

end Operations

end SparkInfer.Beam
