import Mathlib.Data.List.InsertIdx
import Mathlib.Data.List.Nodup
import Mathlib.Tactic.Linarith

/-!
# Elastic rebalancing

`rebalance_experts` of `elasticity_aware.py` balances the experts over the active ranks
only, numbers the slots of those ranks consecutively, and then opens a gap in both maps
for every inactive rank.
-/

namespace SparkInfer.Eplb

open List Function

/-- What `rebalance_experts_hierarchical` returns for one layer: the expert of each slot
with the rank of the slot among the expert's replicas, and the replicas of each expert. -/
structure Placement where
  slots : List (ℕ × ℕ)
  logcnt : List ℕ
  nodup : slots.Nodup
  mem_slots : ∀ e rank, (e, rank) ∈ slots ↔ ∃ n, logcnt[e]? = some n ∧ rank < n

def maxlogcnt (layers : List Placement) : ℕ := (layers.flatMap Placement.logcnt).max?.getD 0

/-- The flat view of `log2phy` after `scatter_`. -/
def log2phy (maxlogcnt : ℕ) (p : Placement) : ℕ → ℤ :=
  p.slots.zipIdx.foldl (fun out s => update out (s.1.1 * maxlogcnt + s.1.2) s.2) fun _ => -1

def openGap (numLocalExperts idx : ℕ) (slot : ℤ) : ℤ :=
  if ((idx * numLocalExperts : ℕ) : ℤ) ≤ slot then slot + numLocalExperts else slot

/-- The loop over `enumerate(active_ranks_list)`; `phy2log` has one slice for each rank. -/
def spread (numLocalExperts : ℕ) : ℕ → List Bool → List (List ℕ) × (ℕ → ℤ) → List (List ℕ) × (ℕ → ℤ)
  | _, [], maps => maps
  | idx, true :: ranks, maps => spread numLocalExperts (idx + 1) ranks maps
  | idx, false :: ranks, (slices, log2phy) =>
    spread numLocalExperts (idx + 1) ranks
      (slices.insertIdx idx (replicate numLocalExperts 0), openGap numLocalExperts idx ∘ log2phy)

/-- `phy2log`, as one slice of slots for each rank, and `log2phy` of one layer. -/
def rebalanceExperts (numLocalExperts : ℕ) (activeRanks : List Bool) (maxlogcnt : ℕ) (p : Placement) :
    List (List ℕ) × (ℕ → ℤ) :=
  let numActiveRanks := activeRanks.count true
  let phy2log := (range numActiveRanks).map fun rank =>
    ((p.slots.map Prod.fst).drop (rank * numLocalExperts)).take numLocalExperts
  if numActiveRanks < activeRanks.length then
    spread numLocalExperts 0 activeRanks (phy2log, log2phy maxlogcnt p)
  else (phy2log, log2phy maxlogcnt p)

variable {nl width idx e n : ℕ} {p : Placement} {l : List ℕ} {flags : List Bool}
variable {maps : List (List ℕ) × (ℕ → ℤ)}

/-- Both maps as expert `e` sees them: `l` are the slots of the flagged ranks with this
expert, each once, and the row of the expert is `l` padded with -1. -/
structure Mirrors (nl width e : ℕ) (flags : List Bool) (maps : List (List ℕ) × (ℕ → ℤ)) (l : List ℕ) :
    Prop where
  nodup : l.Nodup
  row : ∀ k < width, maps.2 (e * width + k) = (l[k]?.map Nat.cast).getD (-1)
  mem : ∀ y, y ∈ l ↔ flags[y / nl]? = some true ∧ maps.1[y / nl]?.bind (·[y % nl]?) = some e

/-! ## The placement of the active slots -/

theorem foldl_update {α : Type} [BEq α] [LawfulBEq α] {l : List α} (hl : l.Nodup) (key : α → ℕ) {a : α}
    (hkey : ∀ x ∈ l, key x = key a → x = a) (out : ℕ → ℤ) (m : ℕ) :
    (l.zipIdx m).foldl (fun out s => update out (key s.1) s.2) out (key a) =
      if a ∈ l then ((m + l.idxOf a : ℕ) : ℤ) else out (key a) := by
  induction l generalizing out m with
  | nil => rfl
  | cons x l ih =>
    obtain ⟨hx, hl⟩ := nodup_cons.mp hl
    rw [zipIdx_cons, foldl_cons, ih hl (forall_mem_cons.mp hkey).2]
    by_cases hxa : x = a
    · subst hxa
      simp [hx]
    · have hne : key a ≠ key x := fun h => hxa (hkey x mem_cons_self h.symm)
      rw [update_of_ne hne, idxOf_cons_ne _ hxa]
      simp only [mem_cons, Ne.symm hxa, false_or, Nat.add_assoc, Nat.succ_eq_add_one, Nat.add_comm 1]

theorem Placement.mirrors {c : ℕ} (hlen : p.slots.length = c * nl) (hnl : 0 < nl)
    (hw : ∀ n ∈ p.logcnt, n ≤ width) (hn : p.logcnt[e]? = some n) :
    Mirrors nl width e (replicate c true) ((range c).map fun rank =>
      ((p.slots.map Prod.fst).drop (rank * nl)).take nl, log2phy width p)
      ((range n).map fun rank => p.slots.idxOf (e, rank)) where
  nodup := by
    refine Nodup.map_on (fun a ha b _ hab => ?_) nodup_range
    have hmem := (p.mem_slots e a).mpr ⟨n, hn, mem_range.mp ha⟩
    exact (Prod.mk.inj ((idxOf_inj hmem).mp hab)).2
  row k hk := by
    have hinj : ∀ s ∈ p.slots, s.1 * width + s.2 = e * width + k → s = (e, k) := by
      intro s hs heq
      obtain ⟨m, hm, hrank⟩ := (p.mem_slots s.1 s.2).mp hs
      have hs' := hrank.trans_le (hw m (mem_of_getElem? hm))
      have hdiv := congrArg (· / width) heq
      have hmod := congrArg (· % width) heq
      simp only [Nat.mul_add_mod', Nat.mod_eq_of_lt hs', Nat.mod_eq_of_lt hk] at hmod
      simp only [Nat.mul_comm _ width, Nat.mul_add_div (Nat.zero_lt_of_lt hk), Nat.div_eq_of_lt hs',
        Nat.div_eq_of_lt hk, Nat.add_zero] at hdiv
      exact Prod.ext hdiv hmod
    have hget := @foldl_update _ _ _ _ p.nodup (fun s => s.1 * width + s.2) (e, k) hinj (fun _ => -1) 0
    refine hget.trans ?_
    by_cases hkn : k < n
    · rw [if_pos ((p.mem_slots e k).mpr ⟨n, hn, hkn⟩)]
      simp [hkn]
    rw [if_neg]
    · simp [hkn]
    intro hmem
    obtain ⟨m, hm, hrank⟩ := (p.mem_slots e k).mp hmem
    rw [hn] at hm
    cases hm
    exact hkn hrank
  mem y := by
    have hslice : y / nl < c → ((range c).map fun rank =>
        ((p.slots.map Prod.fst).drop (rank * nl)).take nl)[y / nl]?.bind (·[y % nl]?) =
          p.slots[y]?.map Prod.fst := by
      intro hrank
      simp [hrank, Nat.mod_lt y hnl, Nat.div_add_mod']
    rw [mem_map, getElem?_replicate]
    constructor
    · rintro ⟨rank, hrank, rfl⟩
      have hmem := (p.mem_slots e rank).mpr ⟨n, hn, mem_range.mp hrank⟩
      have hlt : p.slots.idxOf (e, rank) / nl < c :=
        Nat.div_lt_of_lt_mul (by rw [Nat.mul_comm, ← hlen]; exact idxOf_lt_length_of_mem hmem)
      rw [hslice hlt, getElem?_idxOf hmem, if_pos hlt]
      exact ⟨rfl, rfl⟩
    · rintro ⟨hflag, hslot⟩
      have hlt : y / nl < c := by
        by_contra hnot
        simp [hnot] at hflag
      rw [hslice hlt] at hslot
      obtain ⟨⟨_, rank⟩, hs, rfl⟩ := Option.map_eq_some_iff.mp hslot
      obtain ⟨m, hm, hrank⟩ := (p.mem_slots _ rank).mp (mem_of_getElem? hs)
      rw [hn] at hm
      cases hm
      obtain ⟨_, hget⟩ := List.getElem?_eq_some_iff.mp hs
      exact ⟨rank, mem_range.mpr hrank, by rw [← hget, p.nodup.idxOf_getElem]⟩

/-! ## The gaps of the inactive ranks -/

def gapped (nl idx y : ℕ) : ℕ := if idx * nl ≤ y then y + nl else y

/-- The rank that a gap opens at is not flagged, and the ranks after it move by one. -/
theorem Mirrors.gap (h : Mirrors nl width e flags maps l) (hnl : 0 < nl) (hidx : idx ≤ flags.length)
    (zeros : List ℕ) : Mirrors nl width e (flags.insertIdx idx false)
      (maps.1.insertIdx idx zeros, openGap nl idx ∘ maps.2) (l.map (gapped nl idx)) where
  nodup := by
    refine h.nodup.map fun a b hab => ?_
    unfold gapped at hab
    split_ifs at hab <;> omega
  row k hk := by
    have hcast : ∀ y : ℕ, openGap nl idx y = (gapped nl idx y : ℕ) := by
      intro y
      unfold openGap gapped
      split_ifs <;> omega
    have hpad : openGap nl idx (-1) = -1 := if_neg (by omega)
    change openGap nl idx (maps.2 _) = _
    rw [h.row k hk, getElem?_map]
    cases l[k]? with
    | none => exact hpad
    | some y => exact hcast y
  mem y := by
    have hle : ∀ x, idx * nl ≤ x ↔ idx ≤ x / nl := fun x => (Nat.le_div_iff_mul_le hnl).symm
    rw [mem_map]
    constructor
    · rintro ⟨x, hx, rfl⟩
      have hx := (h.mem x).mp hx
      unfold gapped
      split_ifs with hgap
      · rw [Nat.add_div_right x hnl, Nat.add_mod_right]
        rw [hle] at hgap
        rwa [getElem?_insertIdx_of_gt (by omega), getElem?_insertIdx_of_gt (by omega)]
      · rw [hle] at hgap
        rwa [getElem?_insertIdx_of_lt (by omega), getElem?_insertIdx_of_lt (by omega)]
    · intro hy
      rcases lt_trichotomy (y / nl) idx with hlt | heq | hgt
      · rw [getElem?_insertIdx_of_lt hlt, getElem?_insertIdx_of_lt hlt] at hy
        exact ⟨y, (h.mem y).mpr hy, if_neg (by rw [hle]; omega)⟩
      · rw [heq, getElem?_insertIdx_self, if_pos hidx] at hy
        cases hy.1
      obtain ⟨x, rfl⟩ : ∃ x, y = x + nl :=
        ⟨y - nl, (Nat.sub_add_cancel ((Nat.div_pos_iff.mp (Nat.zero_lt_of_lt hgt)).2)).symm⟩
      rw [Nat.add_div_right x hnl] at hgt
      rw [Nat.add_div_right x hnl, Nat.add_mod_right, getElem?_insertIdx_of_gt hgt,
        getElem?_insertIdx_of_gt hgt] at hy
      exact ⟨x, (h.mem x).mpr hy, if_pos (by rw [hle]; omega)⟩

theorem Mirrors.spread {done ranks : List Bool} (hnl : 0 < nl)
    (h : Mirrors nl width e (done ++ replicate (ranks.count true) true) maps l) :
    ∃ l', l'.length = l.length ∧
      Mirrors nl width e (done ++ ranks) (spread nl done.length ranks maps) l' := by
  induction ranks generalizing done maps l with
  | nil =>
    refine ⟨l, rfl, ?_⟩
    simpa [Eplb.spread] using h
  | cons active ranks ih =>
    have hdone : done ++ active :: ranks = done ++ [active] ++ ranks := by simp
    have hlen : done.length + 1 = (done ++ [active]).length := by simp
    cases active with
    | true =>
      rw [count_cons_self, replicate_succ, append_cons] at h
      rw [Eplb.spread, hlen, hdone]
      exact ih h
    | false =>
      rw [count_cons_of_ne (by decide)] at h
      have hidx : done.length ≤ (done ++ replicate (ranks.count true) true).length := by simp
      have hgap := h.gap hnl hidx (replicate nl 0)
      have hflags : (done ++ replicate (ranks.count true) true).insertIdx done.length false =
          done ++ [false] ++ replicate (ranks.count true) true := by
        generalize replicate (ranks.count true) true = rest
        clear * -
        induction done with
        | nil => rfl
        | cons x done ih => simpa using ih
      rw [hflags] at hgap
      obtain ⟨l', hl', h'⟩ := ih hgap
      rw [Eplb.spread, hlen, hdone]
      exact ⟨l', hl'.trans (length_map _), h'⟩

/-- For every layer and expert `log2phy` lists exactly the slots of active ranks that
`phy2log` maps to the expert, each once and padded with -1, and `logcnt` counts them. -/
theorem elastic_maps_inverse (hnl : 0 < nl) (activeRanks : List Bool) (layers : List Placement)
    (hslots : ∀ p ∈ layers, p.slots.length = activeRanks.count true * nl) :
    ∀ p ∈ layers, ∀ e n, p.logcnt[e]? = some n → ∃ l : List ℕ, l.length = n ∧
      Mirrors nl (maxlogcnt layers) e activeRanks
        (rebalanceExperts nl activeRanks (maxlogcnt layers) p) l := by
  intro p hp e n hn
  have hw : ∀ n ∈ p.logcnt, n ≤ maxlogcnt layers := fun n hmem =>
    le_max?_getD_of_mem (mem_flatMap.mpr ⟨p, hp, hmem⟩)
  have hplaced := p.mirrors (hslots p hp) hnl hw hn
  unfold rebalanceExperts
  dsimp only
  split_ifs with hgaps
  · obtain ⟨l, hl, h⟩ := @Mirrors.spread _ _ _ _ _ [] _ hnl hplaced
    exact ⟨l, hl.trans (by simp), h⟩
  have hcount := le_antisymm count_le_length (not_lt.mp hgaps)
  have hall := eq_replicate_iff.mpr ⟨hcount.symm, fun b hb => (count_eq_length.mp hcount b hb).symm⟩
  rw [← hall] at hplaced
  exact ⟨_, by simp, hplaced⟩

/-- Three experts on the first and the last of three ranks with two slots each. -/
def oneSpare : Placement where
  slots := [(0, 0), (1, 0), (0, 1), (2, 0)]
  logcnt := [2, 1, 1]
  nodup := by decide
  mem_slots e rank := by
    match e with
    | 0 => simp; omega
    | 1 | 2 => simp
    | e + 3 => simp

theorem elastic_maps_inverse_spare :
    (rebalanceExperts 2 [true, false, true] 2 oneSpare).1 = [[0, 1], [0, 0], [0, 2]] ∧
    ∃ l : List ℕ, l.length = 2 ∧ Mirrors 2 (maxlogcnt [oneSpare]) 0 [true, false, true]
      (rebalanceExperts 2 [true, false, true] (maxlogcnt [oneSpare]) oneSpare) l :=
  ⟨rfl, elastic_maps_inverse (by decide) _ [oneSpare] (by simp [oneSpare]) oneSpare mem_cons_self 0 2 rfl⟩

end SparkInfer.Eplb
