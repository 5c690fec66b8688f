import SparkInfer.Beam.Slots

/-!
# Steps that give slots to the group

A prefill takes slots for the leader's prompt, a decode step one slot for every row;
a selection then moves the rows and leaves what nobody names behind as orphans.
-/

namespace SparkInfer.Beam

open Lib.Table List Multiset Option State

variable {n tick : ℕ} {slots cached : List Slot} {rows : List Row} {parentIdx : Option (List ℕ)}

section

variable {s s' : State} {row : Row} {members : List Row}

theorem alloc_eq (h : s.alloc n = some (slots, s')) :
    slots.length = n ∧ s.freeSlots = slots ++ s'.freeSlots ∧
      s' = { s with freeSlots := s'.freeSlots, granted := s.granted ++ slots } := by
  unfold alloc at h
  split at h
  · cases h
  · cases h
    exact ⟨length_take_of_le (by omega), (take_append_drop n _).symm, rfl⟩

theorem allocRows_eq (h : s.allocRows n = some (rows, s')) :
    rows.length = n ∧ s.freeRows = s'.freeRows ++ rows ∧ s' = { s with freeRows := s'.freeRows } := by
  unfold allocRows at h
  split at h
  · cases h
  cases h
  refine ⟨?_, (take_append_drop _ _).symm, rfl⟩
  rw [length_drop]
  omega

theorem SlotsKept.new_slots (h : SlotsKept s) {xs rest : List Slot} (hfree : s.freeSlots = xs ++ rest) :
    xs.Nodup ∧ ∀ x ∈ xs, x ∉ s.beamSlots := by
  have hpool := h.pool
  rw [hfree, ← coe_add, ownSlots] at hpool
  have hsplit : (↑xs + ↑rest + ↑s.otherSlots + (↑s.leaderSlots + ↑s.beamSlots + ↑s.stagedSlots) :
      Multiset Slot) = (↑xs + ↑s.beamSlots) +
        (↑rest + ↑s.otherSlots + ↑s.leaderSlots + ↑s.stagedSlots) := by
    abel
  rw [hsplit] at hpool
  have hpart := (nodup_add.mp hpool).1
  exact ⟨hpart.of_append_left, fun x hx hy => (nodup_append.mp hpart).2.2 x hx x hy rfl⟩

theorem RowsKept.group_nodup (h : RowsKept s) (hrow : s.kv.reqPoolIdx = some row) :
    (row :: s.group.memberRows.getD []).Nodup := by
  have hown := (nodup_add.mp h).2.1
  rw [ownRows, hrow] at hown
  exact coe_nodup.mp hown

/-! ## Decode steps -/

theorem allocForDecode_eq (h : s.allocForDecode = some s') : ∃ row slots,
    s.kv.reqPoolIdx = some row ∧ slots.length = (row :: s.beamTail).length ∧
      s.freeSlots = slots ++ s'.freeSlots ∧ s' = { s with
        freeSlots := s'.freeSlots
        granted := s.granted ++ slots
        reqToToken := store s.reqToToken (row :: s.beamTail) s.kv.kvAllocatedLen (slots.map ([·]))
        kv := { s.kv with
          kvCommittedLen := s.kv.kvCommittedLen + 1, kvAllocatedLen := s.kv.kvAllocatedLen + 1 } } := by
  obtain ⟨row, hrow, h⟩ := bind_eq_some_iff.mp h
  obtain ⟨⟨slots, s₁⟩, halloc, h⟩ := bind_eq_some_iff.mp h
  obtain ⟨hlen, hfree, heq⟩ := alloc_eq halloc
  cases h
  rw [heq] at hfree ⊢
  exact ⟨row, slots, hrow, hlen, hfree, rfl⟩

theorem leaderSlots_grow {x : Slot} (hbare : s.group.allRows = none)
    (hrow : s.kv.reqPoolIdx = some row) (hle : s.kv.cacheProtectedLen ≤ s.kv.kvAllocatedLen)
    (htable : s'.reqToToken = store s.reqToToken [row] s.kv.kvAllocatedLen [[x]])
    (hkv : s'.kv = { s.kv with
      kvCommittedLen := s.kv.kvCommittedLen + 1, kvAllocatedLen := s.kv.kvAllocatedLen + 1 })
    (hgroup : s'.group = s.group) : s'.leaderSlots = s.leaderSlots ++ [x] := by
  have hend : s.leaderEnd = s.kv.kvAllocatedLen := if_pos hbare
  have hend' : s'.leaderEnd = s.kv.kvAllocatedLen + 1 := by
    rw [leaderEnd, hgroup, if_pos hbare, hkv]
  rw [leaderSlots, leaderSlots, hend, hend', hkv]
  simp only [hrow, htable]
  rw [window_succ _ _ hle]
  congr 1
  · congr 1
    exact window_congr fun r _ p _ hp => store_of_lt hp
  · have hnew := store_getElem (t := s.reqToToken) (a := s.kv.kvAllocatedLen) (m := [[x]])
      (List.nodup_singleton row) (j := 0) Nat.one_pos rfl rfl
    exact congrArg ([·]) hnew

theorem beamSlots_grow (hnodup : rows.Nodup) (hall : s.group.allRows = some rows)
    (hlen : slots.length = rows.length) (hle : s.group.promptLen ≤ s.kv.kvAllocatedLen)
    (hslots : slots.Nodup) (hnew : ∀ x ∈ slots, x ∉ s.beamSlots)
    (htable : s'.reqToToken = store s.reqToToken rows s.kv.kvAllocatedLen (slots.map ([·])))
    (hkv : s'.kv = { s.kv with kvCommittedLen := s.kv.kvCommittedLen + 1, kvAllocatedLen := s.kv.kvAllocatedLen + 1 })
    (hgroup : s'.group = s.group) : (↑s'.beamSlots : Multiset Slot) = ↑s.beamSlots + ↑slots := by
  have hbeam : s.beamSlots =
      unique (window s.reqToToken rows s.group.promptLen s.kv.kvAllocatedLen) := by
    rw [beamSlots, hall]
  have hbeam' : s'.beamSlots = unique (window (store s.reqToToken rows s.kv.kvAllocatedLen
      (slots.map ([·]))) rows s.group.promptLen (s.kv.kvAllocatedLen + 1)) := by
    rw [beamSlots, hgroup, hall, htable, hkv]
  have hdisj : s.beamSlots.Disjoint slots := fun x hx hy => hnew x hy hx
  rw [coe_add, coe_eq_coe]
  refine (perm_ext_iff_of_nodup (hbeam' ▸ unique_nodup _)
    ((hbeam ▸ unique_nodup _ : s.beamSlots.Nodup).append hslots hdisj)).mpr fun x => ?_
  rw [mem_append, hbeam, hbeam', mem_unique, mem_unique]
  exact mem_window_store_column hnodup hlen hle

variable (h : Sound s)
include h

theorem Sound.allocForDecode (hrun : s.allocForDecode = some s') : Sound s' := by
  obtain ⟨row, slots, hrow, hlen, hfree, heq⟩ := allocForDecode_eq hrun
  obtain ⟨hcommitted, hcached, hprompt⟩ := h.shape.lengths row hrow
  have htail : s.beamTail = s.group.memberRows.getD [] := by
    rw [beamTail, h.live hrow]
    rfl
  have hnodup := h.kept.rows.group_nodup hrow
  obtain ⟨hslots, hnew⟩ := h.kept.slots.new_slots hfree
  have hgroup : s'.group = s.group := by rw [heq]
  have hkv : s'.kv = { s.kv with
      kvCommittedLen := s.kv.kvCommittedLen + 1, kvAllocatedLen := s.kv.kvAllocatedLen + 1 } := by
    rw [heq]
  have htable : s'.reqToToken = store s.reqToToken (row :: s.beamTail) s.kv.kvAllocatedLen
      (slots.map ([·])) := by rw [heq]
  have hstaged : s'.stagedSlots = s.stagedSlots := by
    rw [stagedSlots, hgroup]
    rfl
  have hshape : Shape s' := by
    rw [heq]
    exact ⟨h.shape.width, fun row' hrow' => ⟨congrArg (· + 1) hcommitted, hcached,
      Nat.le_succ_of_le hprompt⟩, h.shape.bare, h.shape.rows, h.shape.fresh⟩
  have hrows : RowsKept s' := by
    rw [heq]
    exact h.kept.rows
  have hdone : s'.group.retired = s'.group.finished := by
    rw [hgroup]
    exact h.done
  have hended : s'.group.retired = true → s'.kv.reqPoolIdx = none := by
    rw [hgroup, hkv]
    exact h.ended
  have hidle : s'.group.allRows = none → s'.group.pendingOrphans = [] := by
    rw [hgroup]
    exact h.idle
  -- the new slots are the leader's own or the group's
  have hgrow : s'.ownSlots = s.ownSlots + ↑slots ∧ (s.group.allRows ≠ none →
      s'.beamSlots.length = s.beamSlots.length + s.group.beamWidth) := by
    rw [ownSlots, ownSlots, hstaged]
    cases hall : s.group.allRows with
    | none =>
      rw [h.shape.bare hall, getD_none] at htail
      rw [htail] at hlen htable
      obtain ⟨x, rfl⟩ := length_eq_one_iff.mp hlen
      rw [leaderSlots_grow hall hrow (hcached.trans hprompt) htable hkv hgroup,
        beamSlots_of_bare hall, beamSlots_of_bare (by rw [hgroup, hall]), ← coe_add]
      exact ⟨by abel, absurd rfl⟩
    | some rows =>
      obtain ⟨row', members, hrow', hmembers, hcons, hwidth⟩ := h.shape.rows rows hall
      cases hrow.symm.trans hrow'
      rw [hmembers, getD_some] at htail hnodup
      rw [htail, ← hcons] at htable hlen
      rw [← hcons] at hnodup
      have hbeam := beamSlots_grow hnodup hall hlen hprompt hslots hnew htable hkv hgroup
      have hleader : s'.leaderSlots = s.leaderSlots := by
        have hend : s'.leaderEnd = s.leaderEnd := by
          simp only [leaderEnd, hgroup, hall, reduceCtorEq, if_false]
        rw [leaderSlots, leaderSlots, hend, hkv]
        simp only [hrow, htable]
        congr 1
        refine window_congr fun r _ p _ hp => store_of_lt (lt_of_lt_of_le hp ?_)
        simpa only [leaderEnd, hall, reduceCtorEq, if_false] using hprompt
      rw [hleader, hbeam]
      refine ⟨by abel, fun _ => ?_⟩
      have hcard := congrArg card hbeam
      rwa [card_add, coe_card, coe_card, coe_card, hlen, hwidth] at hcard
  refine ⟨⟨hshape, h.kept.slots.take hfree (by rw [heq]) (by rw [heq]) (by rw [heq]) hgrow.1,
    ⟨?_, fun hsome => ?_⟩, hrows⟩, hdone, hended, hidle⟩
  · rw [heq]
    exact h.kept.counts.freed
  · rw [hgroup] at hsome ⊢
    have hheld := h.kept.counts.held hsome
    rw [hgrow.2 hsome, hstaged, hkv, Nat.succ_sub hprompt, Nat.mul_succ]
    omega

/-! ## Selections -/

theorem Sound.counted :
    Sound { s with group := { s.group with numGenerated := s.group.numGenerated + 1 } } := by
  have hslots := h.kept.slots
  refine ⟨⟨{ h.shape with fresh := ?_ },
    ⟨hslots.pool, hslots.ledger⟩, ⟨h.kept.counts.freed, h.kept.counts.held⟩, h.kept.rows⟩,
    h.done, h.ended, h.idle⟩
  intro hgen
  cases hgen

theorem Sound.placeholder (hgen : s.group.numGenerated ≠ 0) :
    Sound { s with outputLen := s.outputLen + 1 } := by
  have hslots := h.kept.slots
  exact ⟨⟨{ h.shape with fresh := fun hzero => absurd hzero hgen },
    ⟨hslots.pool, hslots.ledger⟩, ⟨h.kept.counts.freed, h.kept.counts.held⟩, h.kept.rows⟩,
    h.done, h.ended, h.idle⟩

theorem Sound.applySurvivors (hrows : s.group.allRows ≠ none)
    (hvalid : s.ValidParents parentIdx) : Sound (s.applySurvivors tick parentIdx) := by
  cases parentIdx with
  | none => exact h
  | some ps =>
  obtain ⟨rows, hall⟩ := ne_none_iff_exists'.mp hrows
  obtain ⟨row, members, hrow, hmembers, hcons, hwidth⟩ := h.shape.rows rows hall
  obtain ⟨hcommitted, -, hprompt⟩ := h.shape.lengths row hrow
  obtain ⟨hcount, hbound⟩ := hvalid ps rfl
  have hnodup := h.kept.rows.group_nodup hrow
  rw [hmembers, getD_some, ← hcons] at hnodup
  obtain ⟨old, hold⟩ : ∃ old,
      old = window s.reqToToken rows s.group.promptLen s.kv.kvAllocatedLen := ⟨_, rfl⟩
  obtain ⟨new, hnew⟩ : ∃ new, new = ps.map fun i => old.getD i [] := ⟨_, rfl⟩
  have holdlen : old.length = s.group.beamWidth := by rw [hold, length_window, hwidth]
  have hparent : ∀ l ∈ new, l ∈ old := by
    intro l hl
    rw [hnew] at hl
    obtain ⟨i, hi, rfl⟩ := mem_map.mp hl
    have hlt : i < old.length := holdlen.symm ▸ hbound i hi
    rw [getD_eq_getElem?_getD, getElem?_eq_getElem hlt]
    exact getElem_mem hlt
  have heq : s.applySurvivors tick (some ps) = { s with
      reqToToken := store s.reqToToken rows s.group.promptLen new
      outputLen := s.outputLen + 1
      group := { s.group with
        pendingOrphans := s.group.pendingOrphans ++ [⟨tick, old, new⟩] } } := by
    rw [applySurvivors]
    simp only [hall, getD_some, hcommitted, ← hold, ← hnew]
  -- the rows now read the parents' slots
  have hread : window (store s.reqToToken rows s.group.promptLen new) rows s.group.promptLen
      s.kv.kvAllocatedLen = new := by
    refine window_store hnodup ?_ fun l hl => ?_
    · rw [hnew, length_map, hcount, hwidth]
    · exact length_of_mem_window (hold ▸ hparent l hl)
  have hbeam : (s.applySurvivors tick (some ps)).beamSlots = unique new := by
    rw [heq, beamSlots]
    simp only [hall, hread]
  have hbeam₀ : s.beamSlots = unique old := by
    rw [beamSlots, hall, hold]
  have hstaged : (s.applySurvivors tick (some ps)).stagedSlots =
      s.stagedSlots ++ collectOrphanSlots old new := by
    rw [heq, stagedSlots, stagedSlots]
    simp only [flatMap_append, flatMap_singleton, StagedOrphans.slots]
  have hleader : (s.applySurvivors tick (some ps)).leaderSlots = s.leaderSlots := by
    rw [heq]
    simp only [leaderSlots, leaderEnd, hrow, hall, reduceCtorEq, if_false]
    congr 1
    exact window_congr fun r _ p _ hp => store_of_lt hp
  have hsplit := unique_eq_orphans fun x hx => by
    obtain ⟨l, hl, hxl⟩ := mem_flatten.mp hx
    exact mem_flatten.mpr ⟨l, hparent l hl, hxl⟩
  rw [heq] at hbeam hstaged hleader ⊢
  refine ⟨⟨{ h.shape with fresh := fun hgen => ?_ },
    h.kept.slots.move rfl rfl rfl rfl ?_, ⟨h.kept.counts.freed, fun _ => ?_⟩, h.kept.rows⟩, h.done,
    fun hret => ?_, fun hbare => absurd hbare hrows⟩
  · rw [(h.shape.fresh hgen).1] at hall
    cases hall
  · rw [ownSlots, ownSlots, hbeam, hstaged, hleader, hbeam₀, hsplit, ← coe_add]
    abel
  · have hcard := congrArg card hsplit
    rw [card_add, coe_card, coe_card, coe_card] at hcard
    have hheld := h.kept.counts.held hrows
    rw [hbeam₀, hcard] at hheld
    rw [hbeam, hstaged, length_append]
    dsimp only
    rw [hheld]
    omega
  · exact absurd (hret.symm.trans (h.live hrow)) (by decide)

theorem Sound.launch (hvalid : s.ValidParents parentIdx)
    (hrun : s.launch tick parentIdx = some s') : Sound s' := by
  obtain ⟨s₁, halloc, hrest⟩ := bind_eq_some_iff.mp hrun
  have h₁ := h.allocForDecode halloc
  have hgroup : s₁.group = s.group := by
    obtain ⟨row, slots, -, -, -, heq⟩ := allocForDecode_eq halloc
    rw [heq]
  split_ifs at hrest with hmembers
  · cases hrest
    exact h₁
  cases hrest
  refine h₁.counted.applySurvivors (fun hnone => hmembers (.inl ?_)) ?_
  · exact h.shape.bare (hgroup ▸ hnone)
  · intro ps hps
    rw [hgroup]
    exact hvalid ps hps

/-! ## Prefill -/

theorem Sound.admitted {freeSlots : List Slot} {freeRows : List Row}
    (hwaits : s.kv.reqPoolIdx = none) (hlive : s.group.finished = false)
    (hcached : cached.length ≤ s.group.promptLen)
    (hlen : slots.length = s.group.promptLen + s.outputLen - cached.length)
    (hfree : s.freeSlots = slots ++ freeSlots) (hrows : s.freeRows = freeRows ++ [row]) :
    Sound { s with
      freeSlots := freeSlots
      freeRows := freeRows
      granted := s.granted ++ slots
      reqToToken := store s.reqToToken [row] 0 [cached ++ slots]
      kv := ⟨some row, s.group.promptLen + s.outputLen, s.group.promptLen + s.outputLen,
        cached.length⟩ } := by
  have hbare := h.shape.bare_of_none (.inl hwaits)
  have hmembers := h.shape.bare hbare
  refine ⟨⟨⟨h.shape.width, fun row' _ => ⟨rfl, hcached, Nat.le_add_right ..⟩, h.shape.bare,
    fun rows hall => ?_, h.shape.fresh⟩, h.kept.slots.take hfree rfl rfl rfl ?_,
    ⟨h.kept.counts.freed, absurd hbare⟩, ?_⟩, h.done, fun hret => ?_, h.idle⟩
  · cases hbare.symm.trans hall
  · have hend : cached.length + slots.length = s.group.promptLen + s.outputLen := by omega
    have hread := window_store_suffix s.reqToToken row cached slots
    rw [hend] at hread
    have hleader : s.leaderSlots = [] := by rw [leaderSlots, hwaits]
    rw [ownSlots, ownSlots, hleader]
    simp only [leaderSlots, leaderEnd, beamSlots, hbare, if_true, hread]
    abel
  · have hkept := h.kept.rows
    rw [RowsKept, ownRows, hwaits, hrows, ← coe_add] at hkept
    rw [RowsKept, ownRows]
    simp only [hmembers] at hkept ⊢
    convert hkept using 1
    abel
  · rw [h.done, hlive] at hret
    cases hret

theorem Sound.spawned (hrow : s.kv.reqPoolIdx = some row)
    (hbare : s.group.allRows = none) (hpending : s.group.pendingOrphans = [])
    (hfreed : s.group.slotsFreed = 0) (hgen : s.group.numGenerated ≠ 0)
    (hlen : s.kv.kvAllocatedLen = s.group.promptLen) (hrun : s.spawnMemberRows row = some s') :
    Sound s' ∧ s'.group.numGenerated = s.group.numGenerated := by
  obtain ⟨⟨rows, s₁⟩, halloc, hrest⟩ := bind_eq_some_iff.mp hrun
  obtain ⟨hcount, hfree, heq⟩ := allocRows_eq halloc
  generalize s₁.freeRows = freeRows at heq hfree
  subst heq
  cases hrest
  have hmembers := h.shape.bare hbare
  have hlive := h.live hrow
  have hrows : (row :: rows).Nodup := by
    have hkept := h.kept.rows
    rw [RowsKept, ownRows, hrow, hmembers, hfree, ← coe_add] at hkept
    simp only [toList_some, getD_none, coe_nil] at hkept
    have hsplit : (↑freeRows + ↑rows + ↑s.otherRows + (↑[row] + 0) : Multiset Row) =
        (↑[row] + ↑rows) + (↑freeRows + ↑s.otherRows) := by
      abel
    rw [hsplit] at hkept
    exact coe_nodup.mp (nodup_add.mp hkept).1
  refine ⟨⟨⟨⟨h.shape.width, h.shape.lengths, fun hnone => ?_, fun all hall => ?_, fun hzero => ?_⟩,
    h.kept.slots.move rfl rfl rfl rfl ?_, ⟨h.kept.counts.freed, fun _ => ?_⟩, ?_⟩, h.done,
    fun hret => ?_, by rintro ⟨⟩⟩, rfl⟩
  · cases hnone
  · cases hall
    refine ⟨row, rows, hrow, rfl, rfl, ?_⟩
    rw [length_cons, hcount]
    exact Nat.sub_add_cancel h.shape.width
  · exact absurd hzero hgen
  · have hleader : window (store s.reqToToken rows 0 (rows.map fun _ =>
        (List.range s.group.promptLen).map (s.reqToToken row))) [row] s.kv.cacheProtectedLen
        s.group.promptLen = window s.reqToToken [row] s.kv.cacheProtectedLen s.group.promptLen := by
      refine window_congr fun r hr p _ _ => ?_
      rw [List.mem_singleton.mp hr]
      exact store_of_notMem (List.nodup_cons.mp hrows).1 (by rw [length_map])
    rw [ownSlots, ownSlots]
    simp only [leaderSlots, leaderEnd, beamSlots, stagedSlots, hrow, hbare,
      reduceCtorEq, if_true, if_false, hlen, unique, window_self, dedup_nil, hleader]
  · simp only [beamSlots, stagedSlots, hlen, unique, window_self, dedup_nil, hpending, hfreed,
      Nat.sub_self, Nat.mul_zero, flatMap_nil, length_nil]
  · have hkept := h.kept.rows
    rw [RowsKept, ownRows, hmembers, hfree, ← coe_add] at hkept
    rw [RowsKept, ownRows]
    convert hkept using 1
    abel
  · cases hlive.symm.trans hret

theorem Sound.prefill {final : Bool} (hrun : s.prefill cached final = some s') : Sound s' := by
  unfold State.prefill at hrun
  split at hrun
  · cases hrun
  rename_i hguard
  rw [not_or, not_or, not_isSome_iff_eq_none] at hguard
  obtain ⟨hwaits, hlive, hcached⟩ := hguard
  obtain ⟨⟨rows, s₁⟩, hrows, hrun⟩ := bind_eq_some_iff.mp hrun
  obtain ⟨hone, hfree₁, heq₁⟩ := allocRows_eq hrows
  obtain ⟨row, rfl⟩ := length_eq_one_iff.mp hone
  obtain ⟨row', hrow', hrun⟩ := bind_eq_some_iff.mp hrun
  cases hrow'
  obtain ⟨⟨slots, s₂⟩, hslots, hrun⟩ := bind_eq_some_iff.mp hrun
  obtain ⟨hlen, hfree₂, heq₂⟩ := alloc_eq hslots
  generalize s₂.freeSlots = freeSlots at heq₂ hfree₂
  generalize s₁.freeRows = freeRows at heq₁ hfree₁
  subst heq₂
  subst heq₁
  have hadmitted := h.admitted hwaits (Bool.eq_false_iff.mpr hlive) (Nat.not_lt.mp hcached) hlen hfree₂ hfree₁
  dsimp only at hrun
  split at hrun
  · cases hrun
    exact hadmitted
  · -- the first selection of the group
    rename_i hgen
    have hgen : s.group.numGenerated = 0 := Nat.eq_zero_of_not_pos hgen
    obtain ⟨hbare, hpending, hfreed, hout⟩ := h.shape.fresh hgen
    have hcounted := hadmitted.counted
    unfold selectLeaderPrefill at hrun
    split at hrun
    · cases hrun
      exact hcounted
    obtain ⟨s₃, hspawn, hrest⟩ := bind_eq_some_iff.mp hrun
    cases hrest
    obtain ⟨hspawned, hgen₃⟩ := hcounted.spawned rfl hbare hpending hfreed (Nat.succ_ne_zero _)
      (by dsimp only; omega) hspawn
    exact hspawned.placeholder (hgen₃.trans_ne (Nat.succ_ne_zero _))

end

end SparkInfer.Beam
