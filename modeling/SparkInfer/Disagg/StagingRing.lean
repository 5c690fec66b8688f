import SparkInfer.Lib.Run
import Mathlib.Data.Prod.Lex
import Mathlib.Data.List.Pairwise
import Mathlib.Logic.Function.Basic

/-!
# The staging ring

The decode side hands out regions of one buffer before they are free
(`staging_buffer.py`); the prefill side writes a region once a watermark, the place of the
oldest region in use, says that it is free (`staging_handler.py`).  Watermarks travel in
messages, so the copy of the prefill side can be old.
-/

namespace SparkInfer.Disagg

open List Function

variable {a b : Allocation}

/-- A place in the ring: the round, then the offset. -/
abbrev Watermark := ℕ ×ₗ ℕ

structure Allocation where
  id : ℕ
  offset : ℕ
  size : ℕ
  round : ℕ
deriving DecidableEq, Repr

def Allocation.place (a : Allocation) : Watermark := toLex (a.round, a.offset)

def Allocation.stop (a : Allocation) : ℕ := a.offset + a.size

structure StagingAllocator where
  totalSize : ℕ
  head : ℕ
  round : ℕ
  allocations : List Allocation
  allocOrder : List ℕ
  nextAllocId : ℕ
  watermark : Watermark

namespace StagingAllocator

def new (totalSize : ℕ) : StagingAllocator where
  totalSize := totalSize
  head := 0
  round := 0
  allocations := []
  allocOrder := []
  nextAllocId := 0
  watermark := toLex (0, 0)

def find (s : StagingAllocator) (id : ℕ) : Option Allocation := s.allocations.find? (·.id = id)

def assign (s : StagingAllocator) (requiredBytes : ℕ) : StagingAllocator × Option Allocation :=
  if requiredBytes > s.totalSize then (s, none)
  else
    let spaceAtEnd := s.totalSize - s.head
    let (round, offset, head) :=
      if requiredBytes ≤ spaceAtEnd then (s.round, s.head, s.head + requiredBytes)
      else (s.round + 1, 0, requiredBytes)
    let a : Allocation := { id := s.nextAllocId, offset := offset, size := requiredBytes, round := round }
    ({ s with
      head := head
      round := round
      nextAllocId := s.nextAllocId + 1
      allocations := s.allocations ++ [a]
      allocOrder := s.allocOrder ++ [a.id] }, some a)

def free (s : StagingAllocator) (allocId : ℕ) : StagingAllocator :=
  if (s.find allocId).isNone then s
  else
    let s := { s with allocations := s.allocations.filter (·.id ≠ allocId) }
    let s := { s with allocOrder := s.allocOrder.dropWhile fun id => (s.find id).isNone }
    if s.allocations = [] then
      -- an empty ring starts a round of its own
      { s with round := s.round + 1, head := 0, watermark := toLex (s.round + 1, 0) }
    else
      match s.allocOrder.head?.bind s.find with
      | some oldest => { s with watermark := oldest.place }
      | none => s

end StagingAllocator

/-! ## The prefill side -/

def isWatermarkReady (remote : Option Watermark) (allocRound allocEnd : ℕ) : Bool :=
  if allocRound ≤ 0 then true
  else
    let prevRound := allocRound - 1
    let wm := ofLex (remote.getD (toLex (0, 0)))
    prevRound < wm.1 || (prevRound = wm.1 && allocEnd ≤ wm.2)

def handleWatermarkMsg (remote : Option Watermark) (wm : Watermark) : Option Watermark :=
  if wm > remote.getD (toLex (0, 0)) then some wm else remote

/-! ## The system -/

/-- `κ` names a session of a prefill process; each keeps a copy of the watermark. -/
structure System (κ : Type) where
  ring : StagingAllocator
  responses : List Allocation
  sent : List Watermark
  remote : κ → Option Watermark

inductive Event (κ : Type)
  | assign (requiredBytes : ℕ)
  | free (allocId : ℕ)
  /-- The current watermark goes to the prefill side, after a free or to a new session. -/
  | sendWatermark
  /-- A message that was sent arrives, in any order, perhaps again, perhaps never. -/
  | deliver (session : κ) (wm : Watermark)

variable {κ : Type}

def System.new (κ : Type) (totalSize : ℕ) : System κ where
  ring := .new totalSize
  responses := []
  sent := []
  remote := fun _ => none

def System.step [DecidableEq κ] (s : System κ) : Event κ → Option (System κ)
  | .assign requiredBytes =>
    let (ring, a) := s.ring.assign requiredBytes
    some { s with ring := ring, responses := s.responses ++ a.toList }
  | .free allocId => some { s with ring := s.ring.free allocId }
  | .sendWatermark => some { s with sent := s.sent ++ [s.ring.watermark] }
  | .deliver session wm =>
    if wm ∈ s.sent then
      some { s with remote := Function.update s.remote session (handleWatermarkMsg (s.remote session) wm) }
    else none

def System.run (κ : Type) [DecidableEq κ] (totalSize : ℕ) (events : List (Event κ)) : Option (System κ) :=
  Lib.runFrom step (new κ totalSize) events

/-! ## The ring -/

/-- `a` comes before `b`, and where they share a round they share no byte. -/
def Allocation.Before (a b : Allocation) : Prop :=
  a.id < b.id ∧ (a.round < b.round ∨ (a.round = b.round ∧ a.stop ≤ b.offset))

theorem Allocation.Before.place_le (h : a.Before b) : a.place ≤ b.place := by
  rw [place, place, Prod.Lex.toLex_le_toLex]
  rcases h.2 with hround | ⟨hround, hstop⟩
  · exact .inl hround
  · exact .inr ⟨hround, (Nat.le_add_right _ _).trans hstop⟩

namespace StagingAllocator

variable {s : StagingAllocator} {responses : List Allocation}

structure Placed (s : StagingAllocator) (responses : List Allocation) : Prop where
  live : s.allocations.Sublist responses
  ordered : responses.Pairwise Allocation.Before
  ids : ∀ a ∈ responses, a.id < s.nextAllocId
  below : ∀ a ∈ responses, a.round < s.round ∨ (a.round = s.round ∧ a.stop ≤ s.head)
  fits : s.head ≤ s.totalSize

/-- `alloc_order` lists the regions in use, and the first one is not freed. -/
structure Queued (s : StagingAllocator) : Prop where
  ids : ∀ id ∈ s.allocOrder, id < s.nextAllocId
  order : s.allocOrder.filter (fun id => (s.find id).isSome) = s.allocations.map Allocation.id
  front : ∀ id ∈ s.allocOrder.head?, (s.find id).isSome = true

/-- The watermark is the place of the oldest region in use, or of the next one. -/
def Marked (s : StagingAllocator) : Prop :=
  match s.allocations with
  | [] => s.watermark = toLex (s.round, 0) ∧ s.head = 0
  | oldest :: _ => s.watermark = oldest.place

structure Wf (s : StagingAllocator) (responses : List Allocation) : Prop where
  placed : s.Placed responses
  queued : s.Queued
  marked : s.Marked

theorem wf_new (totalSize : ℕ) : Wf (new totalSize) [] :=
  ⟨⟨List.Sublist.slnil, .nil, fun _ h => absurd h not_mem_nil, fun _ h => absurd h not_mem_nil,
    Nat.zero_le _⟩, ⟨fun _ h => absurd h not_mem_nil, rfl, (fun _ h => nomatch h)⟩, ⟨rfl, rfl⟩⟩

theorem Placed.before (h : s.Placed responses) (ha : a ∈ responses)
    (hb : b ∈ responses) (hid : a.id < b.id) : a.Before b := by
  let R : Allocation → Allocation → Prop := fun a b =>
    (a.id < b.id → a.Before b) ∧ (b.id < a.id → b.Before a)
  have hsymm : Std.Symm R := ⟨fun _ _ h => ⟨h.2, h.1⟩⟩
  have hall : responses.Pairwise R := h.ordered.imp fun hab => ⟨fun _ => hab, fun hlt => by
    have := hab.1
    omega⟩
  exact (hall.forall_of_forall (fun x _ => ⟨fun hlt => absurd hlt (lt_irrefl _),
    fun hlt => absurd hlt (lt_irrefl _)⟩) ha hb).1 hid

/-! ### Assigning -/

def assigned (s : StagingAllocator) (a : Allocation) : StagingAllocator :=
  { s with
    head := a.stop, round := a.round, nextAllocId := s.nextAllocId + 1
    allocations := s.allocations ++ [a], allocOrder := s.allocOrder ++ [a.id] }

/-- A new region starts at the head, or at the start of the next round. -/
structure Next (s : StagingAllocator) (a : Allocation) : Prop where
  id : a.id = s.nextAllocId
  size : a.size ≤ s.totalSize
  place : (a.round = s.round ∧ a.offset = s.head ∧ a.size ≤ s.totalSize - s.head) ∨
    (a.round = s.round + 1 ∧ a.offset = 0 ∧ s.totalSize - s.head < a.size)

theorem assign_cases (s : StagingAllocator) (n : ℕ) :
    s.assign n = (s, none) ∨ ∃ a, s.Next a ∧ s.assign n = (s.assigned a, some a) := by
  unfold assign
  split_ifs with hle
  · exact .inl rfl
  dsimp only
  split_ifs with hspace
  · exact .inr ⟨⟨s.nextAllocId, s.head, n, s.round⟩, ⟨rfl, not_lt.mp hle, .inl ⟨rfl, rfl, hspace⟩⟩, rfl⟩
  · refine .inr ⟨⟨s.nextAllocId, 0, n, s.round + 1⟩,
      ⟨rfl, not_lt.mp hle, .inr ⟨rfl, rfl, not_le.mp hspace⟩⟩, ?_⟩
    rw [assigned, Allocation.stop, Nat.zero_add]

theorem Placed.assigned (h : s.Placed responses) (ha : s.Next a) :
    (s.assigned a).Placed (responses ++ [a]) := by
  have hfits := h.fits
  have hplace := ha.place
  have hbefore : ∀ b ∈ responses, b.Before a := by
    intro b hb
    have hbelow := h.below b hb
    refine ⟨ha.id ▸ h.ids b hb, ?_⟩
    omega
  have hmem : ∀ b ∈ responses ++ [a], b ∈ responses ∨ b = a := fun b hb =>
    (mem_append.mp hb).imp id mem_singleton.mp
  refine ⟨h.live.append (List.Sublist.refl _), ?_, fun b hb => ?_, fun b hb => ?_, ?_⟩
  · refine pairwise_append.mpr ⟨h.ordered, pairwise_singleton _ _, fun b hb c hc => ?_⟩
    rw [mem_singleton.mp hc]
    exact hbefore b hb
  · rcases hmem b hb with hb | rfl
    · exact (h.ids b hb).trans (Nat.lt_succ_self _)
    · exact ha.id ▸ Nat.lt_succ_self _
  · rcases hmem b hb with hb | rfl
    · exact (hbefore b hb).2.imp id fun heq => ⟨heq.1, heq.2.trans (Nat.le_add_right _ _)⟩
    · exact .inr ⟨rfl, le_rfl⟩
  · change a.offset + a.size ≤ s.totalSize
    have := ha.size
    omega

theorem find_assigned (ha : s.Next a) {id : ℕ} (hid : id < s.nextAllocId) :
    (s.assigned a).find id = s.find id := by
  have hne : a.id ≠ id := by
    have := ha.id
    omega
  simp [find, assigned, hne]

theorem find_assigned_new : ((s.assigned a).find a.id).isSome = true := by
  simp [find, assigned]

theorem Queued.assigned (h : s.Queued) (ha : s.Next a) : (s.assigned a).Queued := by
  refine ⟨fun id hmem => ?_, ?_, fun id hfront => ?_⟩
  · rcases mem_append.mp hmem with hold | hnew
    · exact (h.ids id hold).trans (Nat.lt_succ_self _)
    · rw [mem_singleton.mp hnew, ha.id]
      exact Nat.lt_succ_self _
  · have hold : s.allocOrder.filter (fun id => ((s.assigned a).find id).isSome) =
        s.allocations.map Allocation.id := by
      rw [← h.order]
      exact filter_congr fun id hid => by rw [find_assigned ha (h.ids id hid)]
    change (s.allocOrder ++ [a.id]).filter _ = (s.allocations ++ [a]).map Allocation.id
    rw [filter_append, hold, map_append]
    exact congrArg _ (filter_eq_self.mpr fun id hid => by
      rw [mem_singleton.mp hid]
      exact find_assigned_new)
  · change id ∈ (s.allocOrder ++ [a.id]).head? at hfront
    cases horder : s.allocOrder with
    | nil =>
      rw [horder] at hfront
      rw [← Option.some.inj hfront]
      exact find_assigned_new
    | cons first rest =>
      rw [horder] at hfront
      have hfirst : id ∈ s.allocOrder.head? := by rwa [horder]
      rw [find_assigned ha (h.ids id (mem_of_mem_head? hfirst))]
      exact h.front id hfirst

theorem Marked.assigned (h : s.Marked) (ha : s.Next a) : (s.assigned a).Marked := by
  unfold Marked at h ⊢
  simp only [StagingAllocator.assigned]
  cases hall : s.allocations with
  | nil =>
    rw [hall] at h
    obtain ⟨hwm, hhead⟩ := h
    -- at the start of a round the region fits
    have hplace := ha.place
    have hsize := ha.size
    have hround : a.round = s.round ∧ a.offset = 0 := by omega
    change s.watermark = toLex (a.round, a.offset)
    rw [hround.1, hround.2, hwm]
  | cons oldest rest =>
    rwa [hall] at h

theorem Wf.assign (h : s.Wf responses) (n : ℕ) :
    (s.assign n).1.Wf (responses ++ (s.assign n).2.toList) ∧ (s.assign n).1.watermark = s.watermark := by
  obtain hnone | ⟨a, ha, hassign⟩ := s.assign_cases n
  · rw [hnone]
    exact ⟨by rwa [Option.toList_none, append_nil], rfl⟩
  · rw [hassign]
    exact ⟨⟨h.placed.assigned ha, h.queued.assigned ha, h.marked.assigned ha⟩, rfl⟩

/-! ### Freeing -/

def dropped (s : StagingAllocator) (allocId : ℕ) : StagingAllocator :=
  let s := { s with allocations := s.allocations.filter (·.id ≠ allocId) }
  { s with allocOrder := s.allocOrder.dropWhile fun id => (s.find id).isNone }

theorem find_dropped (allocId id : ℕ) :
    ((s.dropped allocId).find id).isSome = ((s.find id).isSome && decide (id ≠ allocId)) := by
  simp only [find, dropped]
  grind

theorem filter_dropWhile_not {α : Type} (p : α → Bool) (l : List α) :
    (l.dropWhile fun a => !p a).filter p = l.filter p := by
  induction l with
  | nil => rfl
  | cons a l ih => cases hp : p a <;> simp [hp, ih]

theorem Queued.dropped (h : s.Queued) (allocId : ℕ) : (s.dropped allocId).Queued := by
  have horder : (s.dropped allocId).allocOrder =
      s.allocOrder.dropWhile fun id => !((s.dropped allocId).find id).isSome := by
    simp only [Option.not_isSome]
    rfl
  refine ⟨fun id hid => h.ids id (dropWhile_sublist _ |>.subset hid), ?_, fun id hid => ?_⟩
  · rw [horder, filter_dropWhile_not fun id => ((s.dropped allocId).find id).isSome]
    have hlive : s.allocOrder.filter (fun id => ((s.dropped allocId).find id).isSome) =
        (s.allocations.map Allocation.id).filter (· ≠ allocId) := by
      rw [← h.order, filter_filter]
      exact filter_congr fun id _ => by rw [find_dropped, Bool.and_comm]
    rw [hlive, filter_map]
    rfl
  · rw [horder] at hid
    have := head?_dropWhile_not (fun id => !((s.dropped allocId).find id).isSome) s.allocOrder
    rw [Option.mem_def.mp hid] at this
    simpa using this

theorem Placed.dropped (h : s.Placed responses) (allocId : ℕ) : (s.dropped allocId).Placed responses :=
  { h with live := filter_sublist.trans h.live }

theorem free_cases (hqueued : s.Queued) (allocId : ℕ) : s.free allocId = s ∨
    ((s.dropped allocId).allocations = [] ∧ s.free allocId = { s.dropped allocId with
      round := s.round + 1, head := 0, watermark := toLex (s.round + 1, 0) }) ∨
    ∃ oldest rest, (s.dropped allocId).allocations = oldest :: rest ∧
      s.free allocId = { s.dropped allocId with watermark := oldest.place } := by
  have hfree : s.free allocId = if (s.find allocId).isNone then s
      else if (s.dropped allocId).allocations = [] then { s.dropped allocId with
        round := s.round + 1, head := 0, watermark := toLex (s.round + 1, 0) }
      else match (s.dropped allocId).allocOrder.head?.bind (s.dropped allocId).find with
        | some oldest => { s.dropped allocId with watermark := oldest.place }
        | none => s.dropped allocId := rfl
  have hq := hqueued.dropped allocId
  rw [hfree]
  split
  · exact .inl rfl
  split_ifs with hempty
  · exact .inr (.inl ⟨hempty, rfl⟩)
  refine .inr (.inr ?_)
  obtain ⟨oldest, rest, hall⟩ := exists_cons_of_ne_nil hempty
  have horder := hq.order
  rw [hall] at horder
  have hfront : (s.dropped allocId).allocOrder.head? = some oldest.id := by
    cases hlist : (s.dropped allocId).allocOrder with
    | nil =>
      rw [hlist] at horder
      cases horder
    | cons first others =>
      have hlive := hq.front first (by rw [hlist]; rfl)
      simp only [hlist, filter_cons, hlive] at horder
      rw [List.head?_cons, (List.cons.inj horder).1]
  have hfind : (s.dropped allocId).find oldest.id = some oldest := by
    rw [find, hall, List.find?_cons_of_pos (by simp)]
  rw [hfront, Option.bind_some, hfind]
  exact ⟨oldest, rest, hall, rfl⟩

theorem Marked.oldest (h : s.Marked) {rest : List Allocation} (hall : s.allocations = a :: rest) :
    s.watermark = a.place := by
  rwa [Marked, hall] at h

theorem Wf.watermark_le (h : s.Wf responses) (ha : a ∈ s.allocations) : s.watermark ≤ a.place := by
  have hordered := h.placed.ordered.sublist h.placed.live
  obtain ⟨oldest, rest, hall⟩ := exists_cons_of_ne_nil (ne_nil_of_mem ha)
  rw [hall] at hordered ha
  rw [h.marked.oldest hall]
  rcases mem_cons.mp ha with rfl | ha
  · exact le_rfl
  · exact (rel_of_pairwise_cons hordered ha).place_le

theorem Wf.watermark_round_le (h : s.Wf responses) : (ofLex s.watermark).1 ≤ s.round := by
  cases hall : s.allocations with
  | nil =>
    have hmarked := h.marked
    rw [Marked, hall] at hmarked
    exact hmarked.1 ▸ le_rfl
  | cons oldest rest =>
    rw [h.marked.oldest hall]
    have hbelow := h.placed.below oldest (h.placed.live.subset (hall ▸ mem_cons_self))
    change oldest.round ≤ s.round
    omega

theorem Wf.free (h : s.Wf responses) (allocId : ℕ) :
    (s.free allocId).Wf responses ∧ s.watermark ≤ (s.free allocId).watermark := by
  have hq := h.queued.dropped allocId
  have hp := h.placed.dropped allocId
  obtain hsame | ⟨hempty, hfree⟩ | ⟨oldest, rest, hall, hfree⟩ := free_cases h.queued allocId
  · rw [hsame]
    exact ⟨h, le_rfl⟩
  · rw [hfree]
    refine ⟨⟨{ hp with below := fun a ha => ?_, fits := Nat.zero_le _ }, { hq with }, ?_⟩, ?_⟩
    · have hbelow := hp.below a ha
      have hle : a.round ≤ s.round := hbelow.elim le_of_lt fun heq => heq.1.le
      exact .inl (Nat.lt_succ_of_le hle)
    · unfold Marked
      rw [show allocations _ = [] from hempty]
      exact ⟨rfl, rfl⟩
    · change toLex (ofLex s.watermark) ≤ toLex (s.round + 1, 0)
      rw [Prod.Lex.toLex_le_toLex]
      exact .inl (Nat.lt_succ_of_le h.watermark_round_le)
  · rw [hfree]
    refine ⟨⟨{ hp with }, { hq with }, ?_⟩, ?_⟩
    · simp only [Marked, hall]
    · refine h.watermark_le ?_
      have hmem : oldest ∈ (s.dropped allocId).allocations := hall ▸ mem_cons_self
      exact filter_sublist.subset hmem

end StagingAllocator

/-! ## The protocol -/

namespace System

variable {s s' : System κ}

/-- No copy of the watermark is ahead of the ring. -/
structure Inv (s : System κ) : Prop where
  ring : s.ring.Wf s.responses
  sent : ∀ wm ∈ s.sent, wm ≤ s.ring.watermark
  remote : ∀ k, (s.remote k).getD (toLex (0, 0)) ≤ s.ring.watermark

theorem handleWatermarkMsg_getD (remote : Option Watermark) (wm : Watermark) :
    (handleWatermarkMsg remote wm).getD (toLex (0, 0)) = max (remote.getD (toLex (0, 0))) wm := by
  unfold handleWatermarkMsg
  split_ifs with hlt
  · rw [max_eq_right (le_of_lt hlt), Option.getD_some]
  · rw [max_eq_left (not_lt.mp hlt)]

/-- A region that a copy of the watermark frees shares no byte with an earlier one in
use. -/
theorem Inv.ready_disjoint (h : s.Inv) {k : κ} (ha : a ∈ s.responses)
    (hb : b ∈ s.ring.allocations) (hearlier : b.id < a.id)
    (hready : isWatermarkReady (s.remote k) a.round a.stop = true) :
    b.stop ≤ a.offset ∨ a.stop ≤ b.offset := by
  have hbefore := h.ring.placed.before (h.ring.placed.live.subset hb) ha hearlier
  rcases hbefore.2 with hround | ⟨-, hstop⟩
  · refine .inr ?_
    have hle : (s.remote k).getD (toLex (0, 0)) ≤ b.place := (h.remote k).trans (h.ring.watermark_le hb)
    unfold isWatermarkReady at hready
    rw [if_neg (by omega)] at hready
    simp only [Bool.or_eq_true, Bool.and_eq_true, decide_eq_true_eq] at hready
    generalize (s.remote k).getD (toLex (0, 0)) = wm at hle hready
    have hle : (ofLex wm).1 < b.round ∨ ((ofLex wm).1 = b.round ∧ (ofLex wm).2 ≤ b.offset) :=
      Prod.Lex.toLex_le_toLex.mp hle
    omega
  · exact .inl hstop

theorem Inv.oldest_ready (h : s.Inv) {k : κ} (ha : a ∈ s.ring.allocations)
    (holdest : ∀ b ∈ s.ring.allocations, a.id ≤ b.id) :
    isWatermarkReady (handleWatermarkMsg (s.remote k) s.ring.watermark) a.round a.stop = true := by
  have hordered := h.ring.placed.ordered.sublist h.ring.placed.live
  obtain ⟨oldest, rest, hall⟩ := exists_cons_of_ne_nil (ne_nil_of_mem ha)
  rw [hall] at hordered ha holdest
  have hsame : a = oldest := by
    rcases mem_cons.mp ha with hsame | hrest
    · exact hsame
    · have hlt := (rel_of_pairwise_cons hordered hrest).1
      have hle := holdest oldest mem_cons_self
      omega
  unfold isWatermarkReady
  rw [handleWatermarkMsg_getD, max_eq_right (h.remote k), h.ring.marked.oldest hall, hsame]
  split
  · rfl
  · have hprev : oldest.round - 1 < oldest.round := by omega
    simp [Allocation.place, hprev]

variable [DecidableEq κ]

theorem Inv.step (h : s.Inv) {e : Event κ} (hstep : s.step e = some s') :
    s'.Inv ∧ s.ring.watermark ≤ s'.ring.watermark := by
  cases e with
  | assign requiredBytes =>
    cases hstep
    obtain ⟨hring, hsame⟩ := h.ring.assign requiredBytes
    exact ⟨⟨hring, fun wm hwm => (h.sent wm hwm).trans hsame.ge,
      fun k => (h.remote k).trans hsame.ge⟩, hsame.ge⟩
  | free allocId =>
    cases hstep
    obtain ⟨hring, hle⟩ := h.ring.free allocId
    exact ⟨⟨hring, fun wm hwm => (h.sent wm hwm).trans hle, fun k => (h.remote k).trans hle⟩, hle⟩
  | sendWatermark =>
    cases hstep
    refine ⟨⟨h.ring, fun wm hwm => ?_, h.remote⟩, le_rfl⟩
    rcases mem_append.mp hwm with hold | hnew
    · exact h.sent wm hold
    · exact (mem_singleton.mp hnew).le
  | deliver session wm =>
    dsimp only [System.step] at hstep
    split at hstep
    · rename_i hsent
      cases hstep
      refine ⟨⟨h.ring, h.sent, fun k => ?_⟩, le_rfl⟩
      change (update s.remote session _ k).getD _ ≤ s.ring.watermark
      by_cases hk : k = session
      · rw [hk, update_self, handleWatermarkMsg_getD]
        exact max_le (h.remote session) (h.sent wm hsent)
      · rw [update_of_ne hk]
        exact h.remote k
    · cases hstep

theorem inv_of_run {totalSize : ℕ} {events : List (Event κ)} (hrun : run κ totalSize events = some s) :
    s.Inv := by
  have hstart : (new κ totalSize).Inv :=
    ⟨StagingAllocator.wf_new totalSize, fun _ h => absurd h not_mem_nil, fun _ => le_rfl⟩
  exact Lib.runFrom_invariant (fun _ _ _ h _ hstep => (h.step hstep).1) hstart
    (Lib.guarded_of_forall (fun _ _ => trivial) _ _) hrun

/-- Whatever the frees, wraps and messages: a region that is judged ready shares no byte
with an earlier one in use, the watermark only grows, and the oldest region in use is
ready once the current watermark has arrived. -/
theorem staging_watermark_safe (totalSize : ℕ) (events : List (Event κ)) (s : System κ)
    (hrun : run κ totalSize events = some s) :
    (∀ k, ∀ a ∈ s.responses, isWatermarkReady (s.remote k) a.round a.stop = true →
      ∀ b ∈ s.ring.allocations, b.id < a.id → ∀ x, a.offset ≤ x → x < a.stop →
        ¬(b.offset ≤ x ∧ x < b.stop)) ∧
    (∀ e s', s.step e = some s' → s.ring.watermark ≤ s'.ring.watermark) ∧
    ∀ k, ∀ a ∈ s.ring.allocations, (∀ b ∈ s.ring.allocations, a.id ≤ b.id) →
      isWatermarkReady (handleWatermarkMsg (s.remote k) s.ring.watermark) a.round a.stop = true := by
  have hinv := inv_of_run hrun
  refine ⟨fun k a ha hready b hb hearlier x hlow hhigh hin => ?_, fun e s' hstep => (hinv.step hstep).2,
    fun k a ha holdest => hinv.oldest_ready ha holdest⟩
  rcases hinv.ready_disjoint ha hb hearlier hready with h | h <;> omega

/-- A ring of ten bytes: the third region wraps around into the first one. -/
def wrapped : List (Event Unit) := [.assign 6, .assign 4, .assign 5]

theorem staging_watermark_safe_wrapped :
    (∃ s, run Unit 10 wrapped = some s ∧ isWatermarkReady (s.remote ()) 1 5 = false) ∧
    ∃ s, run Unit 10 (wrapped ++ [.free 0, .sendWatermark, .deliver () (toLex (0, 6))]) = some s ∧
      isWatermarkReady (s.remote ()) 1 5 = true ∧
      ∀ b ∈ s.ring.allocations, b.id < 2 → ∀ x, 0 ≤ x → x < 5 → ¬(b.offset ≤ x ∧ x < b.stop) := by
  refine ⟨⟨_, rfl, rfl⟩, _, rfl, rfl, ?_⟩
  exact (staging_watermark_safe 10 (wrapped ++ [.free 0, .sendWatermark, .deliver () (toLex (0, 6))]) _
    rfl).1 () ⟨2, 0, 5, 1⟩ (by decide) rfl

end System

end SparkInfer.Disagg
