import SparkInfer.Mamba.Ownership
import Mathlib.Data.List.Perm.Basic

/-!
# Allocation for a batch of requests

`alloc` binds rows, supplies the requests with slots and writes the mappings.  It
leaves the rows and buffers wired and takes every slot that it hands out from the
allocator.
-/

namespace SparkInfer.Mamba.Pool

open Lib List Option

variable {cfg : Config} {p p' q : Pool} {r : ReqId} {reqs reqs' : List ReqId}
variable {a a' : SlotAllocator} {n : ℕ} {slots : List Slot} {slot : Slot} {sel : List Row}

/-! ## Rows -/

/-- Only rows were handed out: to requests that had none, and to all of `reqs`. -/
structure Rebound (p p' : Pool) (reqs : List ReqId) : Prop where
  owned : p'.RowsOwned
  kv : ∀ r, p'.reqs r = { p.reqs r with reqPoolIdx := (p'.reqs r).reqPoolIdx }
  keep : ∀ {r k}, (p.reqs r).reqPoolIdx = some k → (p'.reqs r).reqPoolIdx = some k
  bound : ∀ r ∈ reqs, (p'.reqs r).reqPoolIdx ≠ none
  other : ∀ r ∉ reqs, p'.reqs r = p.reqs r
  allocator : p'.allocator = p.allocator
  ckpt : p'.ckpt = p.ckpt
  values : p'.values = p.values
  mapping : p'.pingPongMapping = p.pingPongMapping

theorem Rebound.refl (h : p.RowsOwned) (hbound : ∀ r ∈ reqs, (p.reqs r).reqPoolIdx ≠ none) :
    Rebound p p reqs :=
  ⟨h, fun _ => rfl, fun hk => hk, hbound, fun _ _ => rfl, rfl, rfl, rfl, rfl⟩

theorem RowsOwned.bind {row : Row} (r : ReqId)
    (h : RowsOwned { p with rows := p.rows ++ row :: sel }) :
    RowsOwned { p.setReq r { p.reqs r with reqPoolIdx := some row } with rows := p.rows ++ sel } := by
  obtain ⟨hrow, hnodup⟩ := nodup_cons.mp (nodup_middle.mp h.nodup)
  have hget : ∀ {r' k}, ((p.setReq r { p.reqs r with reqPoolIdx := some row }).reqs r').reqPoolIdx =
      some k → r' = r ∧ k = row ∨ (p.reqs r').reqPoolIdx = some k ∧ k ≠ row := by
    intro r' k hk
    by_cases hr : r' = r
    · rw [hr, reqs_setReq_self] at hk
      exact .inl ⟨hr, (some.inj hk).symm⟩
    · rw [reqs_setReq_of_ne _ hr] at hk
      refine .inr ⟨hk, ?_⟩
      rintro rfl
      exact h.not_free hk (mem_append_right _ mem_cons_self)
  refine ⟨hnodup, fun {r₁ r₂ k} h₁ h₂ => ?_, fun {r' k} hk hmem => ?_⟩
  · rcases hget h₁ with ⟨hr₁, hk₁⟩ | ⟨h₁, hne₁⟩ <;> rcases hget h₂ with ⟨hr₂, hk₂⟩ | ⟨h₂, hne₂⟩
    · rw [hr₁, hr₂]
    · exact absurd hk₁ hne₂
    · exact absurd hk₂ hne₁
    · exact h.inj h₁ h₂
  · rcases hget hk with ⟨-, rfl⟩ | ⟨hk, -⟩
    · exact hrow hmem
    · exact h.not_free hk (perm_middle.mem_iff.mpr (mem_cons_of_mem _ hmem))

/-- The rows of `sel` are on their way from the free list to requests. -/
theorem bindRows_spec (h : RowsOwned { p with rows := p.rows ++ sel })
    (hcount : reqs.countP (fun r => (p.reqs r).reqPoolIdx.isNone) ≤ sel.length) :
    Rebound p (bindRows reqs sel p) reqs := by
  have howned : p.RowsOwned :=
    ⟨h.nodup.of_append_left, h.inj, fun hk hmem => h.not_free hk (mem_append_left _ hmem)⟩
  induction reqs generalizing sel p with
  | nil =>
    rw [bindRows]
    · exact .refl howned fun _ h => nomatch h
    · exact fun _ _ _ _ h => nomatch h
  | cons r reqs ih =>
    cases sel with
    | nil =>
      rw [bindRows]
      · refine .refl howned fun r' hr' hnone => ?_
        have hzero := countP_eq_zero.mp (Nat.le_zero.mp hcount) r' hr'
        rw [hnone] at hzero
        exact hzero rfl
      · exact fun _ _ _ _ _ h => nomatch h
    | cons row sel =>
      rw [bindRows]
      split_ifs with hsome
      · have hrest : reqs.countP (fun r => (p.reqs r).reqPoolIdx.isNone) ≤ (row :: sel).length := by
          rw [countP_cons_of_neg (by rw [Bool.not_eq_true, ← not_isSome, hsome]; rfl)] at hcount
          exact hcount
        have hreb := ih h hrest howned
        refine { hreb with bound := fun r' hr' => ?_, other := fun r' hr' => ?_ }
        · rcases mem_cons.mp hr' with rfl | hr'
          · obtain ⟨k, hk⟩ := isSome_iff_exists.mp hsome
            rw [hreb.keep hk]
            exact some_ne_none k
          · exact hreb.bound r' hr'
        · exact hreb.other r' fun h => hr' (mem_cons_of_mem _ h)
      have hsome : (p.reqs r).reqPoolIdx = none := not_isSome_iff_eq_none.mp hsome
      have hq := h.bind r
      set q := p.setReq r { p.reqs r with reqPoolIdx := some row }
      have hself : (q.reqs r).reqPoolIdx = some row := by rw [reqs_setReq_self]
      have hother : ∀ r', r' ≠ r → q.reqs r' = p.reqs r' := fun r' hr => reqs_setReq_of_ne _ hr
      have hqcount : reqs.countP (fun r' => (q.reqs r').reqPoolIdx.isNone) ≤ sel.length := by
        have hle : reqs.countP (fun r' => (q.reqs r').reqPoolIdx.isNone) ≤
            reqs.countP (fun r' => (p.reqs r').reqPoolIdx.isNone) := by
          refine countP_mono_left fun r' _ hr' => ?_
          by_cases hr : r' = r
          · rw [hr, hsome]
            rfl
          · rw [← hother r' hr]
            exact hr'
        rw [countP_cons_of_pos (by rw [hsome]; rfl)] at hcount
        exact hle.trans (Nat.le_of_succ_le_succ hcount)
      have hreb := ih hq hqcount ⟨howned.nodup, hq.inj, fun hk hmem =>
        hq.not_free hk (mem_append_left _ hmem)⟩
      refine ⟨hreb.owned, fun r' => ?_, fun {r' k} hk => ?_, fun r' hr' => ?_, fun r' hr' => ?_,
        hreb.allocator, hreb.ckpt, hreb.values, hreb.mapping⟩
      · rw [hreb.kv r']
        by_cases hr : r' = r
        · rw [hr, reqs_setReq_self]
        · rw [hother r' hr]
      · refine hreb.keep ?_
        have hr : r' ≠ r := by
          rintro rfl
          rw [hsome] at hk
          cases hk
        rw [hother r' hr]
        exact hk
      · rcases mem_cons.mp hr' with rfl | hr'
        · rw [hreb.keep hself]
          exact some_ne_none row
        · exact hreb.bound r' hr'
      · rw [mem_cons, not_or] at hr'
        rw [hreb.other r' hr'.2, hother r' hr'.1]

theorem RowsOwned.allocRows (h : p.RowsOwned) (hal : p.allocRows reqs = some p') :
    Rebound p p' reqs := by
  unfold Pool.allocRows at hal
  dsimp only at hal
  split at hal
  · cases hal
  cases hal
  have hsplit := take_append_drop
    (p.rows.length - reqs.countP fun r => (p.reqs r).reqPoolIdx.isNone) p.rows
  have hreb : Rebound { p with rows := p.rows.take (p.rows.length - _) } _ reqs :=
    bindRows_spec (by rw [hsplit]; exact h) (by
      rw [length_drop]
      dsimp only
      omega)
  exact { hreb with }

/-! ## Slots -/

def avail (p : Pool) : List Slot := p.allocator.freeSlots ++ p.allocator.allocIter.getD []

structure Supply (cfg : Config) (p p' : Pool) (reqs : List ReqId) : Prop where
  flow : ∀ hand, Flow cfg p hand p' hand
  rows : p'.rows = p.rows
  mapping : p'.pingPongMapping = p.pingPongMapping
  row : ∀ r, (p'.reqs r).reqPoolIdx = (p.reqs r).reqPoolIdx
  other : ∀ r ∉ reqs, p'.reqs r = p.reqs r
  keep : ∀ {r buf}, (p.reqs r).pingPongTrackBuffer = some buf →
    (p'.reqs r).pingPongTrackBuffer = some buf
  length : ∀ {r buf}, (p'.reqs r).pingPongTrackBuffer = some buf →
    (p.reqs r).pingPongTrackBuffer = some buf ∨ buf.length = cfg.trackBufferSize
  bare : cfg.extraBuffer = false → ∀ r, (p'.reqs r).pingPongTrackBuffer = (p.reqs r).pingPongTrackBuffer
  avail : p'.avail ⊆ p.avail
  fresh : ∀ r, ∀ x ∈ (p'.reqs r).slots, x = -1 ∨ x ∈ (p.reqs r).slots ∨ x ∈ p.avail

theorem Supply.refl (cfg : Config) (p : Pool) : Supply cfg p p [] :=
  ⟨.refl cfg p, rfl, rfl, fun _ => rfl, fun _ _ => rfl, fun h => h,
    .inl, fun _ _ => rfl, fun _ h => h, fun _ _ h => .inr (.inl h)⟩

theorem Supply.trans (h : Supply cfg p p' reqs) (h' : Supply cfg p' q reqs') :
    Supply cfg p q (reqs ++ reqs') where
  flow hand := (h.flow hand).trans (h'.flow hand)
  rows := h'.rows.trans h.rows
  mapping := h'.mapping.trans h.mapping
  row r := (h'.row r).trans (h.row r)
  other r hr := by
    rw [mem_append, not_or] at hr
    exact (h'.other r hr.2).trans (h.other r hr.1)
  keep hbuf := h'.keep (h.keep hbuf)
  length hbuf := by
    rcases h'.length hbuf with hbuf | hlen
    · exact h.length hbuf
    · exact .inr hlen
  bare hextra r := (h'.bare hextra r).trans (h.bare hextra r)
  avail x hx := h.avail (h'.avail hx)
  fresh r x hx := by
    rcases h'.fresh r x hx with hx | hx | hx
    · exact .inl hx
    · exact h.fresh r x hx
    · exact .inr (.inr (h.avail hx))

theorem supply_setReq {kv : ReqKv} (h : p.allocator.alloc n = some (slots, a))
    (hrow : kv.reqPoolIdx = (p.reqs r).reqPoolIdx)
    (hkeep : (p.reqs r).pingPongTrackBuffer ≠ none → kv.pingPongTrackBuffer = (p.reqs r).pingPongTrackBuffer)
    (hlen : ∀ buf, kv.pingPongTrackBuffer = some buf → (p.reqs r).pingPongTrackBuffer = some buf ∨ buf.length = cfg.trackBufferSize)
    (hbare : cfg.extraBuffer = false → kv.pingPongTrackBuffer = (p.reqs r).pingPongTrackBuffer)
    (hreal : real false kv.slots = real false (p.reqs r).slots + real false slots)
    (hfresh : ∀ x ∈ kv.slots, x = -1 ∨ x ∈ (p.reqs r).slots ∨ x ∈ slots) :
    Supply cfg p ({ p with allocator := a }.setReq r kv) [r] := by
  have hperm := (alloc_perm h).2
  have hsub : slots ⊆ p.avail := fun x hx => hperm.subset (mem_append_left _ hx)
  have havail : a.freeSlots ++ a.allocIter.getD [] ⊆ p.avail :=
    fun x hx => hperm.subset (mem_append_right _ hx)
  have hself : ({ p with allocator := a }.setReq r kv).reqs r = kv := reqs_setReq_self _
  have hother : ∀ r', r' ≠ r → ({ p with allocator := a }.setReq r kv).reqs r' = p.reqs r' :=
    fun r' hr => reqs_setReq_of_ne kv hr
  refine ⟨fun hand => ?_, rfl, rfl, apply_setReq ReqKv.reqPoolIdx hrow,
    fun r' hr => hother r' (ne_of_not_mem_cons hr),
    fun {r' buf} hbuf => ?_, fun {r' buf} hbuf => ?_,
    fun hextra => apply_setReq ReqKv.pingPongTrackBuffer (hbare hextra), havail, fun r' x hx => ?_⟩
  · have hal : Flow cfg p hand { p with allocator := a } (hand + real false slots) :=
      flow_alloc (b := false) h hand
    refine hal.trans (flow_setReq kv ?_)
    rw [hreal, add_assoc, add_comm (real false slots)]
  · by_cases hr : r' = r
    · subst hr
      rw [hself, hkeep (by rw [hbuf]; exact some_ne_none buf), hbuf]
    · rw [hother r' hr, hbuf]
  · by_cases hr : r' = r
    · subst hr
      rw [hself] at hbuf
      exact hlen buf hbuf
    · rw [hother r' hr] at hbuf
      exact .inl hbuf
  · by_cases hr : r' = r
    · subst hr
      rw [hself] at hx
      rcases hfresh x hx with hx | hx | hx
      · exact .inl hx
      · exact .inr (.inl hx)
      · exact .inr (.inr (hsub hx))
    · rw [hother r' hr] at hx
      exact .inr (.inl hx)

theorem alloc1_ok (h : p.alloc1 false = some (slot, p')) :
    ∃ a, p.allocator.alloc 1 = some ([slot], a) ∧ p' = { p with allocator := a } := by
  unfold alloc1 at h
  split at h
  · rename_i x a halloc
    cases h
    exact ⟨a, halloc, rfl⟩
  · cases h

theorem supply_running (h : p.alloc1 false = some (slot, p'))
    (hnone : (p.reqs r).mambaPoolIdx = none) :
    Supply cfg p (p'.setReq r { p'.reqs r with mambaPoolIdx := some slot }) [r] := by
  obtain ⟨a, halloc, rfl⟩ := alloc1_ok h
  refine supply_setReq halloc rfl (fun _ => rfl) (fun _ hbuf => .inl hbuf) (fun _ => rfl) ?_ ?_
  · rw [ReqKv.slots, ReqKv.slots, hnone, real_append, real_append, toList_some,
      toList_none, real_nil, zero_add, add_comm]
  intro x hx
  rcases mem_append.mp hx with hx | hx
  · exact .inr (.inr hx)
  · exact .inr (.inl (mem_append_right _ hx))

theorem supply_allocPingPongBuffer (hextra : cfg.extraBuffer = true)
    (hnone : (p.reqs r).pingPongTrackBuffer = none) (h : allocPingPongBuffer cfg p r = .ok p') :
    Supply cfg p p' [r] ∧ (p'.reqs r).pingPongTrackBuffer ≠ none := by
  unfold allocPingPongBuffer at h
  dsimp only at h
  split at h
  · cases h
  rename_i slots a halloc
  cases h
  refine ⟨supply_setReq halloc rfl (absurd hnone) (fun buf hbuf => .inr ?_)
    (fun hno => nomatch hextra.symm.trans hno) ?_ ?_, ?_⟩
  · cases hbuf
    have hsize : 1 ≤ cfg.trackBufferSize := by
      unfold Config.trackBufferSize
      split <;> decide
    rw [length_append, length_replicate, (alloc_perm halloc).1]
    split <;> omega
  · rw [ReqKv.slots, ReqKv.slots, hnone]
    simp
  · intro x hx
    rcases mem_append.mp hx with hx | hx
    · exact .inr (.inl (mem_append_left _ hx))
    · rcases mem_append.mp hx with hx | hx
      · exact .inr (.inr hx)
      · exact .inl (eq_of_mem_replicate hx)
  · rw [reqs_setReq_self]
    exact some_ne_none _

theorem Supply.mono (h : Supply cfg p p' reqs) (hsub : reqs ⊆ reqs') : Supply cfg p p' reqs' :=
  { h with other := fun r hr => h.other r fun hin => hr (hsub hin) }

theorem supply_allocReq (h : allocReq cfg p r = .ok p') :
    Supply cfg p p' [r] ∧ (cfg.extraBuffer = true → (p'.reqs r).pingPongTrackBuffer ≠ none) := by
  obtain ⟨p₁, hrun, hbuf⟩ := bind_ok h
  have hsup : Supply cfg p p₁ [r] := by
    unfold allocRunning at hrun
    split_ifs at hrun with hnone
    · cases hrun
      exact (Supply.refl cfg p).mono (nil_subset _)
    split at hrun
    · cases hrun
    · rename_i mid p₂ halloc
      cases hrun
      exact supply_running halloc (not_isSome_iff_eq_none.mp hnone)
  split_ifs at hbuf with hneed
  · obtain ⟨hsup', hne⟩ := supply_allocPingPongBuffer hneed.1 hneed.2 hbuf
    exact ⟨(hsup.trans hsup').mono (by simp), fun _ => hne⟩
  · cases hbuf
    exact ⟨hsup, fun hextra hnone => hneed ⟨hextra, hnone⟩⟩

theorem supply_foldlM (h : reqs.foldlM (allocReq cfg) p = .ok p') : Supply cfg p p' reqs ∧
      (cfg.extraBuffer = true → ∀ r ∈ reqs, (p'.reqs r).pingPongTrackBuffer ≠ none) := by
  induction reqs generalizing p with
  | nil =>
    obtain rfl : p = p' := Except.ok.inj h
    exact ⟨.refl cfg p, fun _ _ h => absurd h not_mem_nil⟩
  | cons r reqs ih =>
    obtain ⟨p₁, hr, hrest⟩ := bind_ok h
    obtain ⟨hsup, hne⟩ := supply_allocReq hr
    obtain ⟨hsup', hne'⟩ := ih hrest
    refine ⟨hsup.trans hsup', fun hextra r' hr' => ?_⟩
    rcases mem_cons.mp hr' with rfl | hr'
    · obtain ⟨buf, hbuf⟩ := ne_none_iff_exists'.mp (hne hextra)
      rw [hsup'.keep hbuf]
      exact some_ne_none buf
    · exact hne' hextra r' hr'

/-! ## Mappings -/

structure Remapped (p p' : Pool) : Prop where
  rows : p'.rows = p.rows
  allocator : p'.allocator = p.allocator
  ckpt : p'.ckpt = p.ckpt
  reqs : p'.reqs = p.reqs
  values : p'.values = p.values

theorem Remapped.held (h : Remapped p p') : p'.held cfg = p.held cfg :=
  held_congr h.allocator h.ckpt h.values fun r => by rw [h.reqs]

theorem remapped_writeMappings (cfg : Config) (p : Pool) (r : ReqId) :
    Remapped p (writeMappings cfg p r) := by
  unfold writeMappings
  split
  · exact ⟨rfl, rfl, rfl, rfl, rfl⟩
  · split <;> exact ⟨rfl, rfl, rfl, rfl, rfl⟩

theorem mapping_writeMappings (hextra : cfg.extraBuffer = true) {row : Row}
    (hrow : (p.reqs r).reqPoolIdx = some row) (k : Row) :
    (writeMappings cfg p r).pingPongMapping k =
      if k = row then (p.reqs r).pingPongTrackBuffer.getD [] else p.pingPongMapping k := by
  unfold writeMappings
  rw [hrow]
  dsimp only
  rw [if_pos hextra]
  exact Function.update_apply _ _ _ _

theorem mapping_writeMappings_of_none (hnone : (p.reqs r).reqPoolIdx = none) :
    writeMappings cfg p r = p := by
  unfold writeMappings
  rw [hnone]

theorem foldl_writeMappings (reqs : List ReqId) (hinj : ∀ {r r' k},
    (p.reqs r).reqPoolIdx = some k → (p.reqs r').reqPoolIdx = some k → r = r') (hextra : cfg.extraBuffer = true) (k : Row) :
    (∀ r ∈ reqs, (p.reqs r).reqPoolIdx = some k →
      (reqs.foldl (writeMappings cfg) p).pingPongMapping k = (p.reqs r).pingPongTrackBuffer.getD []) ∧
    ((∀ r ∈ reqs, (p.reqs r).reqPoolIdx ≠ some k) →
      (reqs.foldl (writeMappings cfg) p).pingPongMapping k = p.pingPongMapping k) := by
  induction reqs generalizing p with
  | nil => exact ⟨fun _ h => absurd h not_mem_nil, fun _ => rfl⟩
  | cons r reqs ih =>
    have hre := remapped_writeMappings cfg p r
    have hrest := ih (by rw [hre.reqs]; exact hinj)
    rw [hre.reqs] at hrest
    obtain ⟨hin, hout⟩ := hrest
    rw [foldl_cons]
    refine ⟨fun r' hr' hk => ?_, fun hno => ?_⟩
    · by_cases hmem : r' ∈ reqs
      · exact hin r' hmem hk
      · obtain rfl : r' = r := (mem_cons.mp hr').resolve_right hmem
        rw [hout fun r'' hr'' hk'' => hmem (hinj hk hk'' ▸ hr''), mapping_writeMappings hextra hk,
          if_pos rfl]
    · rw [hout (forall_mem_cons.mp hno).2]
      cases hrow : (p.reqs r).reqPoolIdx with
      | none => rw [mapping_writeMappings_of_none hrow]
      | some row =>
        rw [mapping_writeMappings hextra hrow, if_neg]
        rintro rfl
        exact hno r mem_cons_self hrow

theorem remapped_foldl (cfg : Config) (p : Pool) (reqs : List ReqId) :
    Remapped p (reqs.foldl (writeMappings cfg) p) := by
  induction reqs generalizing p with
  | nil => exact ⟨rfl, rfl, rfl, rfl, rfl⟩
  | cons r reqs ih =>
    have h := remapped_writeMappings cfg p r
    have h' := ih (writeMappings cfg p r)
    exact ⟨h'.rows.trans h.rows, h'.allocator.trans h.allocator, h'.ckpt.trans h.ckpt,
      h'.reqs.trans h.reqs, h'.values.trans h.values⟩

/-! ## The batch -/

theorem Rebound.held (h : Rebound p p' reqs) : p'.held cfg = p.held cfg :=
  held_congr h.allocator h.ckpt h.values fun r => by rw [h.kv r]; rfl

theorem Wired.alloc (hw : p.Wired cfg) (h : alloc cfg p reqs = .ok p') :
    p'.Wired cfg ∧ (∀ hand, Flow cfg p hand p' hand) ∧
      ∀ r, ∀ x ∈ (p'.reqs r).slots, x = -1 ∨ x ∈ (p.reqs r).slots ∨ x ∈ p.avail := by
  unfold Pool.alloc at h
  split at h
  · cases h
    exact ⟨hw, fun hand => .refl cfg p hand, fun _ _ hx => .inr (.inl hx)⟩
  rename_i p₁ hrows
  obtain ⟨p₂, hsup, hp'⟩ := bind_ok h
  cases hp'
  have hreb := hw.toRowsOwned.allocRows hrows
  obtain ⟨hsup, hne⟩ := supply_foldlM hsup
  have hmap := remapped_foldl cfg p₂ reqs
  have howned : p₂.RowsOwned := hreb.owned.of_eq hsup.rows hsup.row
  have hbuf₁ : ∀ r, (p₁.reqs r).pingPongTrackBuffer = (p.reqs r).pingPongTrackBuffer :=
    fun r => by rw [hreb.kv r]
  refine ⟨⟨howned.of_eq hmap.rows fun r => by rw [hmap.reqs], ?_, ?_⟩, fun hand => ?_,
    fun r x hx => ?_⟩
  · intro hextra r k hk
    rw [hmap.reqs] at hk ⊢
    obtain ⟨hin, hout⟩ := foldl_writeMappings reqs howned.inj hextra k
    by_cases hr : r ∈ reqs
    · obtain ⟨buf, hbuf⟩ := ne_none_iff_exists'.mp (hne hextra r hr)
      refine ⟨buf, hbuf, by rw [hin r hr hk, hbuf, getD_some], ?_⟩
      rcases hsup.length hbuf with hold | hlen
      · rw [hbuf₁] at hold
        -- a buffer from before: the request had its row then
        cases hrow : (p.reqs r).reqPoolIdx with
        | none =>
          rw [hw.bare r (.inr hrow)] at hold
          cases hold
        | some k₀ =>
          obtain ⟨buf', hbuf', -, hlen⟩ := hw.mapped hextra r k₀ hrow
          rw [hold] at hbuf'
          cases hbuf'
          exact hlen
      · exact hlen
    · have hrow : (p.reqs r).reqPoolIdx = some k := by
        rw [← hreb.other r hr, ← hsup.other r hr]
        exact hk
      obtain ⟨buf, hbuf, hmapped, hlen⟩ := hw.mapped hextra r k hrow
      refine ⟨buf, ?_, ?_, hlen⟩
      · rw [hsup.other r hr, hreb.other r hr]
        exact hbuf
      · rw [hout fun r' hr' hk' => hr (howned.inj hk hk' ▸ hr'), hsup.mapping, hreb.mapping]
        exact hmapped
  · intro r hr
    rw [hmap.reqs] at hr ⊢
    rcases hr with hextra | hnone
    · rw [hsup.bare hextra, hbuf₁]
      exact hw.bare r (.inl hextra)
    rw [hsup.row] at hnone
    have hr : r ∉ reqs := fun hmem => hreb.bound r hmem hnone
    rw [hsup.other r hr, hreb.other r hr]
    rw [hreb.other r hr] at hnone
    exact hw.bare r (.inr hnone)
  · exact (((Flow.refl cfg p hand).congr hreb.held).trans (hsup.flow hand)).congr hmap.held
  · rw [hmap.reqs] at hx
    have hslots : (p₁.reqs r).slots = (p.reqs r).slots := by
      rw [hreb.kv r]
      rfl
    have havail : p₁.avail = p.avail := by rw [avail, avail, hreb.allocator]
    rw [← hslots, ← havail]
    exact hsup.fresh r x hx

end SparkInfer.Mamba.Pool
