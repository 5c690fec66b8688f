import SparkInfer.Alloc.Capacity

/-!
# Window eviction of a request's row

`free_swa_out_of_window_slots` moves the eviction cursor of a request and gives back the
sliding-window side of the positions it passes; `free_kv_row_segments` gives back the rest.
A position of the row stands for its slot, a range for the positions `fst ≤ p < snd`.  One
call of the allocator releases every page that its positions touch once.
-/

namespace SparkInfer.Alloc.Window

open Paged List

variable {p : Nat}

abbrev Range := Nat × Nat

structure ReqKvInfo where
  reqPoolIdx : Option Nat
  cacheProtectedLen : Nat
  swaEvictFloor : Nat
  swaEvictedSeqlen : Nat

def swaDeadLo (cacheProtectedLen swaEvictFloor pageSize : Nat) : Nat :=
  let lo := max cacheProtectedLen swaEvictFloor
  if 1 < pageSize ∧ cacheProtectedLen < lo then ceilDiv lo pageSize * pageSize else lo

/-- The arguments of one eviction, and the protected length the request has by then. -/
structure Call where
  cacheProtectedLen : Nat
  preLen : Nat
  slidingWindowSize : Nat
  isChunkCache : Bool
  retainFloor : Option Int

def Call.evictThreshold (c : Call) (pageSize : Nat) : Int :=
  let threshold : Int :=
    if c.isChunkCache then c.preLen - c.slidingWindowSize
    else c.preLen - max c.slidingWindowSize pageSize
  match c.retainFloor with
  | some floor => if c.isChunkCache then threshold else min threshold floor
  | none => threshold

/-- The request and the range given to `free_swa`; `none` when the assertion fails. -/
def freeSwaOutOfWindowSlots (k : Nat) (kv : ReqKvInfo) (c : Call) :
    Option (ReqKvInfo × List Range) :=
  let kv := { kv with cacheProtectedLen := c.cacheProtectedLen }
  if kv.reqPoolIdx = none then some (kv, [])
  else if kv.cacheProtectedLen % k ≠ 0 then none
  else
    let cursor := max kv.swaEvictedSeqlen (swaDeadLo kv.cacheProtectedLen kv.swaEvictFloor k)
    let new := (max (cursor : Int) (c.evictThreshold k)).toNat
    let new := if 1 < k then new / k * k else new
    if cursor < new then some ({ kv with swaEvictedSeqlen := new }, [(cursor, new)])
    else some ({ kv with swaEvictedSeqlen := cursor }, [])

def numDead (swaEvictedSeqlen : Nat) (r : Range) : Nat :=
  min (swaEvictedSeqlen - r.1) (r.2 - r.1)

/-- What `free_full` and what `free_segments` get; `none` when the assertion fails. -/
def freeKvRowSegments (k : Nat) (segments : List Range) (swaEvictedSeqlen : Nat) :
    Option (List Range × List Range) :=
  let dead := (segments.filter fun r => 0 < numDead swaEvictedSeqlen r).map fun r =>
    (r.1, r.1 + numDead swaEvictedSeqlen r)
  let alive := (segments.filter fun r => numDead swaEvictedSeqlen r < r.2 - r.1).map fun r =>
    (r.1 + numDead swaEvictedSeqlen r, r.2)
  if dead ≠ [] ∧ alive ≠ [] ∧ swaEvictedSeqlen % k ≠ 0 then none else some (dead, alive)

/-! ## Released pages -/

/-- A call with these ranges releases the page of position `p`. -/
def Touches (k p : Nat) (call : List Range) : Prop :=
  ∃ r ∈ call, ∃ q < r.2, r.1 ≤ q ∧ q / k = p / k

instance (k p : Nat) (call : List Range) : Decidable (Touches k p call) :=
  inferInstanceAs (Decidable (∃ r ∈ call, _))

/-- How often the calls release the page of position `p`. -/
def releases (k : Nat) (calls : List (List Range)) (p : Nat) : Nat :=
  calls.countP fun call => Touches k p call

section Pages

variable {k a b : Nat} {call : List Range} {calls : List (List Range)}

@[simp]
theorem releases_nil : releases k [] p = 0 := rfl

@[simp]
theorem releases_cons : releases k (call :: calls) p =
    releases k calls p + if Touches k p call then 1 else 0 := by
  simp [releases, countP_cons]

@[simp]
theorem touches_nil : ¬ Touches k p [] := by simp [Touches]

theorem touches_of_mem {r : Range} (hr : r ∈ call) (h1 : r.1 ≤ p) (h2 : p < r.2) :
    Touches k p call :=
  ⟨r, hr, p, h2, h1, rfl⟩

theorem le_of_same_page (hk : 0 < k) (ha : k ∣ a) {q : Nat} (hq : a ≤ q) (h : q / k = p / k) :
    a ≤ p := by
  obtain ⟨n, rfl⟩ := ha
  rw [mul_comm] at hq ⊢
  rw [← Nat.le_div_iff_mul_le hk, ← h]
  exact (Nat.le_div_iff_mul_le hk).2 hq

theorem lt_of_same_page (hk : 0 < k) (hb : k ∣ b) {q : Nat} (hq : q < b) (h : q / k = p / k) :
    p < b := by
  by_contra hp
  exact absurd (le_of_same_page hk hb (Nat.le_of_not_lt hp) h.symm) (by omega)

/-- A range that starts with a page releases the pages of its own positions only. -/
theorem touches_range (hk : 0 < k) (ha : k ∣ a) (hb : k ∣ b ∨ p < b) :
    Touches k p [(a, b)] ↔ a ≤ p ∧ p < b := by
  constructor
  · rintro ⟨r, hr, q, hqb, hqa, h⟩
    obtain rfl := mem_singleton.1 hr
    exact ⟨le_of_same_page hk ha hqa h, hb.elim (lt_of_same_page hk · hqb h) id⟩
  · exact fun h => touches_of_mem (mem_singleton_self _) h.1 h.2

theorem touches_ite {c : Prop} [Decidable c] (hk : 0 < k) (ha : k ∣ a) (hb : k ∣ b ∨ p < b) :
    Touches k p (if c then [(a, b)] else []) ↔ c ∧ a ≤ p ∧ p < b := by
  split_ifs with h <;> simp [h, touches_range hk ha hb]

theorem touches_append {call' : List Range} :
    Touches k p (call ++ call') ↔ Touches k p call ∨ Touches k p call' := by
  simp [Touches, or_and_right, exists_or]

end Pages

/-! ## A sequence of evictions -/

/-- The calls and what each gave to `free_swa`, the last one first. -/
abbrev Log := List (Call × List Range)

/-- The states of a request that is evicted again and again, its protected prefix growing. -/
inductive Evictions (k floor : Nat) : ReqKvInfo → Log → Prop
  | start {row protectedLen : Nat} : k ∣ protectedLen →
      Evictions k floor ⟨some row, protectedLen, floor, 0⟩ []
  | call {kv kv' : ReqKvInfo} {log : Log} {c : Call} {freed : List Range} :
      Evictions k floor kv log → kv.cacheProtectedLen ≤ c.cacheProtectedLen →
      k ∣ c.cacheProtectedLen → freeSwaOutOfWindowSlots k kv c = some (kv', freed) →
      Evictions k floor kv' ((c, freed) :: log)

/-- The end of the shield, a whole number of pages. -/
def shield (k floor : Nat) : Nat := ceilDiv floor k * k

variable {k floor : Nat} {kv kv' : ReqKvInfo} {c : Call} {log : Log}

theorem shield_le (hk : 0 < k) {n : Nat} (hn : k ∣ n) (h : floor ≤ n) : shield k floor ≤ n := by
  obtain ⟨m, rfl⟩ := hn
  rw [mul_comm] at h ⊢
  exact Nat.mul_le_mul_right k ((ceilDiv_le_iff hk).2 h)

theorem swaDeadLo_eq (hk : 0 < k) {n : Nat} (hn : k ∣ n) :
    swaDeadLo n floor k = max n (shield k floor) := by
  have hle : floor ≤ shield k floor := le_ceilDiv_mul hk
  have hceil := @shield_le _ floor hk _ hn
  have hone : k = 1 → shield k floor = floor := by
    rintro rfl
    simp [shield, ceilDiv]
  simp only [swaDeadLo]
  split_ifs
  · rw [max_eq_right (by omega : n ≤ floor), max_eq_right (by omega)]
    rfl
  · omega

theorem dvd_max {a b : Nat} (ha : k ∣ a) (hb : k ∣ b) : k ∣ max a b := by
  rcases max_choice a b with h | h <;> rw [h] <;> assumption

/-- What one eviction does, at a cursor and a protected length that end with a page. -/
theorem freeSwaOutOfWindowSlots_spec (hk : 0 < k) (hrow : kv.reqPoolIdx ≠ none)
    (hc : k ∣ c.cacheProtectedLen) (hcur : k ∣ kv.swaEvictedSeqlen) :
    ∃ lo hi, lo = max kv.swaEvictedSeqlen (max c.cacheProtectedLen (shield k kv.swaEvictFloor)) ∧
      k ∣ lo ∧ k ∣ hi ∧ lo ≤ hi ∧ (lo < hi → (hi : Int) ≤ c.evictThreshold k) ∧
      freeSwaOutOfWindowSlots k kv c =
        some ({ kv with cacheProtectedLen := c.cacheProtectedLen, swaEvictedSeqlen := hi },
          if lo < hi then [(lo, hi)] else []) := by
  have hlo : k ∣ max kv.swaEvictedSeqlen (max c.cacheProtectedLen (shield k kv.swaEvictFloor)) :=
    dvd_max hcur (dvd_max hc (Nat.dvd_mul_left k _))
  simp only [freeSwaOutOfWindowSlots, if_neg hrow, Nat.mod_eq_zero_of_dvd hc, swaDeadLo_eq hk hc]
  generalize max kv.swaEvictedSeqlen _ = lo at hlo ⊢
  generalize hn : (max (lo : Int) (c.evictThreshold k)).toNat = n
  have hpage : (if 1 < k then n / k * k else n) = n / k * k := by
    split_ifs
    · rfl
    · rw [show k = 1 by omega, Nat.div_one, Nat.mul_one]
  have hle : n / k * k ≤ n := Nat.div_mul_le_self n k
  rw [hpage]
  by_cases h : lo < n / k * k
  · exact ⟨lo, n / k * k, rfl, hlo, Nat.dvd_mul_left k _, h.le, fun _ => by omega, by simp [h]⟩
  · exact ⟨lo, lo, rfl, hlo, hlo, le_rfl, fun h => absurd h (lt_irrefl _), by simp [h]⟩

/-- What a call of the log gave back, when the cursor has reached `cursor`. -/
def Logged (k floor cursor : Nat) (e : Call × List Range) : Prop :=
  e.2 = [] ∨ ∃ lo hi, e.2 = [(lo, hi)] ∧ k ∣ e.1.cacheProtectedLen ∧ k ∣ lo ∧ k ∣ hi ∧
    max e.1.cacheProtectedLen (shield k floor) ≤ lo ∧ (hi : Int) ≤ e.1.evictThreshold k ∧
    hi ≤ cursor

structure Evicted (k floor : Nat) (kv : ReqKvInfo) (log : Log) : Prop where
  row : kv.reqPoolIdx ≠ none
  floor_eq : kv.swaEvictFloor = floor
  protectedLen : k ∣ kv.cacheProtectedLen
  cursor : k ∣ kv.swaEvictedSeqlen
  fresh : log = [] → kv.swaEvictedSeqlen = 0
  dead_le : log ≠ [] → shield k floor ≤ kv.swaEvictedSeqlen
  logged : ∀ e ∈ log, Logged k floor kv.swaEvictedSeqlen e
  once : ∀ p, kv.cacheProtectedLen ≤ p → shield k floor ≤ p → p < kv.swaEvictedSeqlen →
    releases k (log.map Prod.snd) p = 1
  le_one : ∀ p, releases k (log.map Prod.snd) p ≤ 1

/-- A page that was released lies behind the cursor, and within the bounds of some call. -/
theorem Evicted.of_released (hk : 0 < k) (h : Evicted k floor kv log)
    (hp : releases k (log.map Prod.snd) p ≠ 0) :
    ∃ e ∈ log, max e.1.cacheProtectedLen (shield k floor) ≤ p ∧
      p < kv.swaEvictedSeqlen ∧ ∃ hi, k ∣ hi ∧ p < hi ∧ (hi : Int) ≤ e.1.evictThreshold k := by
  obtain ⟨freed, hfreed, ht⟩ := countP_pos_iff.1 (pos_of_ne_zero hp)
  obtain ⟨e, he, rfl⟩ := mem_map.1 hfreed
  rcases h.logged e he with hnil | ⟨lo, hi, hr, -, hlo, hhi, hle, hthr, hcur⟩
  · rw [hnil] at ht
    simp at ht
  · rw [hr, decide_eq_true_iff, touches_range hk hlo (.inl hhi)] at ht
    exact ⟨e, he, by omega, by omega, hi, hhi, ht.2, hthr⟩

theorem Evicted.releases_eq (hk : 0 < k) (h : Evicted k floor kv log)
    (hp : kv.cacheProtectedLen ≤ p) : releases k (log.map Prod.snd) p =
      if shield k floor ≤ p ∧ p < kv.swaEvictedSeqlen then 1 else 0 := by
  split_ifs with hin
  · exact h.once p hp hin.1 hin.2
  · by_contra hne
    obtain ⟨_, -, hle, hlt, -⟩ := h.of_released hk hne
    omega

theorem Evictions.evicted (hk : 0 < k) (h : Evictions k floor kv log) : Evicted k floor kv log := by
  induction h with
  | start hc =>
    exact ⟨nofun, rfl, hc, dvd_zero k, fun _ => rfl, absurd rfl, nofun, nofun, fun _ => by simp⟩
  | @call kv kv' log c freed _ hmono hc hfree ih =>
    obtain ⟨lo, hi, hlo, hklo, hkhi, hle, hthr, heq⟩ :=
      freeSwaOutOfWindowSlots_spec hk ih.row hc ih.cursor
    rw [heq] at hfree
    cases hfree
    rw [ih.floor_eq] at hlo
    have hold : ∀ p, lo ≤ p → releases k (log.map Prod.snd) p = 0 := by
      intro p hp
      by_contra hne
      obtain ⟨_, -, -, hlt, -⟩ := ih.of_released hk hne
      omega
    have hnew : ∀ p, Touches k p (if lo < hi then [(lo, hi)] else []) ↔ lo ≤ p ∧ p < hi := by
      intro p
      split_ifs
      · exact touches_range hk hklo (.inl hkhi)
      · simp only [touches_nil, false_iff]
        omega
    refine ⟨ih.row, ih.floor_eq, hc, hkhi, nofun, fun _ => by dsimp only; omega, ?_, ?_, ?_⟩
    · rintro e (_ | ⟨_, he⟩)
      · by_cases hlt : lo < hi
        · exact .inr ⟨lo, hi, if_pos hlt, hc, hklo, hkhi, by dsimp only; omega, hthr hlt, le_rfl⟩
        · exact .inl (if_neg hlt)
      · rcases ih.logged e he with hnil | ⟨a, b, hr, hdvd, ha, hb, hab, hbt, hbc⟩
        · exact .inl hnil
        · exact .inr ⟨a, b, hr, hdvd, ha, hb, hab, hbt, by dsimp only; omega⟩
    · intro p hpc hps hp
      simp only [map_cons, releases_cons, hnew]
      dsimp only at hpc hp
      by_cases hlt : lo ≤ p
      · rw [hold p hlt, if_pos ⟨hlt, hp⟩]
      · rw [ih.once p (by omega) hps (by omega), if_neg (by omega)]
    · intro p
      simp only [map_cons, releases_cons, hnew]
      by_cases hlt : lo ≤ p
      · rw [hold p hlt]
        split_ifs <;> omega
      · rw [if_neg (by omega)]
        exact ih.le_one p

/-! ## The final free of the row -/

/-- The assertion holds, and a cursor at the end of a page leaves no page to both calls. -/
theorem freeKvRowSegments_spec (hk : 0 < k) {cursor : Nat} (hcur : k ∣ cursor)
    (segments : List Range) : ∃ dead alive,
      freeKvRowSegments k segments cursor = some (dead, alive) ∧
      ∀ r ∈ segments, ∀ p, r.1 ≤ p → p < r.2 →
        (Touches k p dead ↔ p < cursor) ∧ (Touches k p alive ↔ cursor ≤ p) := by
  refine ⟨_, _, if_neg fun h => h.2.2 (Nat.mod_eq_zero_of_dvd hcur), fun r hr p h1 h2 => ?_⟩
  have hdead : numDead cursor r = min (cursor - r.1) (r.2 - r.1) := rfl
  refine ⟨⟨?_, fun hp => ?_⟩, ?_, fun hp => ?_⟩
  · rintro ⟨_, hd, q, hq, -, h⟩
    obtain ⟨s, hs, rfl⟩ := mem_map.1 hd
    have hs := of_decide_eq_true (mem_filter.1 hs).2
    exact lt_of_same_page hk hcur (by dsimp only [numDead] at hq hs; omega) h
  · refine touches_of_mem (mem_map_of_mem (mem_filter.2 ⟨hr, decide_eq_true ?_⟩)) h1 ?_
    all_goals simp only [hdead]; omega
  · rintro ⟨_, ha, q, hq, hle, h⟩
    obtain ⟨s, hs, rfl⟩ := mem_map.1 ha
    exact le_of_same_page hk hcur (by dsimp only [numDead] at hle hs; omega) h
  · refine touches_of_mem (mem_map_of_mem (mem_filter.2 ⟨hr, decide_eq_true ?_⟩)) ?_ h2
    all_goals simp only [hdead]; omega

theorem Call.evictThreshold_le (c : Call) (k : Nat) :
    c.evictThreshold k ≤ c.preLen - c.slidingWindowSize ∧
      (c.isChunkCache = false → c.evictThreshold k ≤ c.preLen - k ∧
        ∀ floor ∈ c.retainFloor, c.evictThreshold k ≤ floor) := by
  obtain ⟨_, _, _, _ | _, _ | _⟩ := c <;> simp [evictThreshold] <;> omega

/-- Window evictions followed by a free of the rest of the row.  Every position outside the
protected prefix loses its full slot once.  Its window slot it loses at most once, and once if
the prefix has grown over the shield or no eviction was made. -/
theorem window_evictions_then_free_row (hk : 0 < k) (h : Evictions k floor kv log) :
    k ∣ kv.swaEvictedSeqlen ∧ (∀ c : Call, k ∣ c.cacheProtectedLen → ∃ kv' freed,
      freeSwaOutOfWindowSlots k kv c = some (kv', freed) ∧
        kv.swaEvictedSeqlen ≤ kv'.swaEvictedSeqlen) ∧
    (∀ e ∈ log, ∀ r ∈ e.2, ∀ p, r.1 ≤ p → p < r.2 → swaDeadLo e.1.cacheProtectedLen floor k ≤ p ∧
      (p : Int) < e.1.preLen - e.1.slidingWindowSize ∧
      (e.1.isChunkCache = false → ∀ retain ∈ e.1.retainFloor, (p : Int) < retain)) ∧
    (∀ p, releases k (log.map Prod.snd) p ≤ 1) ∧
    ∀ (protectedLen : Nat) (segments : List Range), kv.cacheProtectedLen ≤ protectedLen →
      k ∣ protectedLen → (∀ r ∈ segments, protectedLen ≤ r.1) → ∃ dead alive,
      freeKvRowSegments k segments kv.swaEvictedSeqlen = some (dead, alive) ∧
      ∀ r ∈ segments, ∀ p, r.1 ≤ p → p < r.2 → releases k [dead, alive] p = 1 ∧
        releases k (alive :: log.map Prod.snd) p ≤ 1 ∧
        (floor ≤ protectedLen ∨ log = [] → releases k (alive :: log.map Prod.snd) p = 1) := by
  have hev := h.evicted hk
  refine ⟨hev.cursor, fun c hc => ?_, fun e he r hr p h1 h2 => ?_, hev.le_one,
    fun n segments hn hkn hsegs => ?_⟩
  · obtain ⟨lo, hi, hlo, -, -, hle, -, heq⟩ := freeSwaOutOfWindowSlots_spec hk hev.row hc hev.cursor
    exact ⟨_, _, heq, by dsimp only; omega⟩
  · obtain hnil | ⟨lo, hi, hlog, hdvd, -, -, hlo, hthr, -⟩ := hev.logged e he
    · simp [hnil] at hr
    rw [hlog, mem_singleton] at hr
    subst hr
    have hbound := e.1.evictThreshold_le k
    refine ⟨?_, by omega, fun hchunk retain hretain => ?_⟩
    · rw [swaDeadLo_eq hk hdvd]
      exact hlo.trans h1
    · have := (hbound.2 hchunk).2 retain hretain
      omega
  obtain ⟨dead, alive, heq, hsides⟩ := freeKvRowSegments_spec hk hev.cursor segments
  refine ⟨dead, alive, heq, fun r hr p h1 h2 => ?_⟩
  obtain ⟨hdead, halive⟩ := hsides r hr p h1 h2
  have hrow := hsegs r hr
  simp only [releases_cons, releases_nil, hdead, halive, hev.releases_eq hk (p := p) (by omega)]
  refine ⟨by split_ifs <;> omega, by split_ifs <;> omega, fun hcond => ?_⟩
  have hpast := hcond.imp (shield_le hk hkn) hev.fresh
  split_ifs <;> omega

/-- One eviction moves the cursor over a shield of four positions and gives nothing back. -/
theorem shielded_run : Evictions 1 4 ⟨some 0, 0, 4, 4⟩ [(⟨0, 4, 2, false, none⟩, [])] :=
  .call (.start (one_dvd 0)) le_rfl (one_dvd 0) rfl

/-- The free of the row takes the shielded positions for dead ones. -/
theorem shielded_position_never_released : ∃ kv log dead alive, Evictions 1 4 kv log ∧
    freeKvRowSegments 1 [(kv.cacheProtectedLen, 5)] kv.swaEvictedSeqlen = some (dead, alive) ∧
    releases 1 (alive :: log.map Prod.snd) 0 = 0 :=
  ⟨_, _, [(0, 4)], [(4, 5)], shielded_run, rfl, by decide⟩

theorem window_evictions_then_free_row_after_prefill : ∃ dead alive,
    freeKvRowSegments 1 [(4, 6)] 4 = some (dead, alive) ∧ releases 1 (alive :: [[]]) 5 = 1 := by
  obtain ⟨-, -, -, -, h⟩ := window_evictions_then_free_row one_pos shielded_run
  obtain ⟨dead, alive, heq, hall⟩ := h 4 [(4, 6)] (by decide) (by decide) (by decide)
  obtain ⟨-, -, hone⟩ := hall (4, 6) (by decide) 5 (by decide) (by decide)
  exact ⟨dead, alive, heq, hone (.inl le_rfl)⟩

/-! ## All-SWA caches -/

structure PureSWARadixCache where
  pageSize : Nat
  disable : Bool
  disableFinishedInsert : Bool
  isEagle : Bool

def PureSWARadixCache.keysLen (t : PureSWARadixCache) (kvCommittedLen : Nat) : Nat :=
  (if t.isEagle then kvCommittedLen - 1 else kvCommittedLen) / t.pageSize * t.pageSize

/-- The range the tree takes over, and the ranges of each call of `free`.  `insert` is the tree:
how much of a key of the given length it held before. -/
def PureSWARadixCache.cacheFinishedReq (t : PureSWARadixCache) (insert : Nat → Nat)
    (kv : ReqKvInfo) (isInsert : Bool) (kvCommittedLen : Nat) : Range × List (List Range) :=
  if t.disable then ((0, 0), [[(0, kvCommittedLen)]])
  else
    let keysLen := t.keysLen kvCommittedLen
    let oldPrefixLen := kv.cacheProtectedLen
    let swaEvictFloor :=
      if 1 < t.pageSize ∧ 0 < kv.swaEvictFloor then ceilDiv kv.swaEvictFloor t.pageSize * t.pageSize
      else kv.swaEvictFloor
    let insertEnd := if 0 < swaEvictFloor then min swaEvictFloor keysLen else keysLen
    if (isInsert && !t.disableFinishedInsert) = true ∧ 0 < insertEnd then
      let newPrefixLen := insert insertEnd
      let aliveStart := max kv.swaEvictedSeqlen insertEnd
      ((newPrefixLen, insertEnd),
        [if oldPrefixLen < newPrefixLen then [(oldPrefixLen, newPrefixLen)] else [],
          if aliveStart < keysLen then [(aliveStart, keysLen)] else [],
          [(keysLen, kvCommittedLen)]])
    else
      let freeEnd := insertEnd
      let aliveStart := max kv.swaEvictedSeqlen oldPrefixLen
      ((0, 0), [if oldPrefixLen < freeEnd then [(oldPrefixLen, freeEnd)] else [],
          if 0 < kv.swaEvictedSeqlen ∧ aliveStart < keysLen then [(aliveStart, keysLen)] else [],
          [(keysLen, kvCommittedLen)]])

def PureSWAChunkCache.cacheFinishedReq (kv : ReqKvInfo) (kvCommittedLen : Nat) : List Range :=
  if kv.swaEvictFloor < kv.swaEvictedSeqlen then
    (if kv.cacheProtectedLen < kv.swaEvictFloor then [(kv.cacheProtectedLen, kv.swaEvictFloor)]
      else []) ++
    if kv.swaEvictedSeqlen < kvCommittedLen then
      [(max kv.swaEvictedSeqlen kv.cacheProtectedLen, kvCommittedLen)]
    else []
  else [(kv.cacheProtectedLen, kvCommittedLen)]

/-- How often position `p` is accounted for: taken by the tree, or released. -/
def accounted (k : Nat) (finish : Range × List (List Range)) (log : Log) (p : Nat) : Nat :=
  releases k (finish.2 ++ log.map Prod.snd) p + if finish.1.1 ≤ p ∧ p < finish.1.2 then 1 else 0

/-- The request was prefilled up to its floor and then decoded, evicted at any times. -/
structure Decoded (k : Nat) (isChunkCache : Bool) (kv : ReqKvInfo)
    (log : Log) (kvCommittedLen : Nat) : Prop where
  pageSize : 0 < k
  evictions : Evictions k kv.swaEvictFloor kv log
  calls : ∀ e ∈ log, e.1.isChunkCache = isChunkCache ∧ e.1.preLen ≤ kvCommittedLen
  prefilled : 0 < kv.swaEvictFloor ∧ kv.cacheProtectedLen ≤ kv.swaEvictFloor
  committed : kv.swaEvictFloor ≤ kvCommittedLen

/-- A page aligned tree that holds the protected prefix. -/
def Holds (k : Nat) (kv : ReqKvInfo) (insert : Nat → Nat) : Prop :=
  ∀ n, kv.cacheProtectedLen ≤ n → k ∣ n →
    kv.cacheProtectedLen ≤ insert n ∧ insert n ≤ n ∧ k ∣ insert n

/-- What a radix cache needs to account for a request: it is not disabled after an eviction;
without an insert, an eviction has been made or the key ends within the shield. -/
structure PureSWARadixCache.Accounts (t : PureSWARadixCache) (insert : Nat → Nat)
    (isInsert : Bool) (kv : ReqKvInfo) (log : Log) (n : Nat) : Prop where
  decoded : Decoded t.pageSize false kv log n
  keys : kv.cacheProtectedLen ≤ t.keysLen n
  holds : Holds t.pageSize kv insert
  enabled : t.disable = true → log = []
  tail : (isInsert && !t.disableFinishedInsert) = true ∨ log ≠ [] ∨
    t.keysLen n ≤ shield t.pageSize kv.swaEvictFloor

variable {t : PureSWARadixCache} {insert : Nat → Nat} {isInsert : Bool} {n : Nat}

/-- The margin of a page keeps the evictions of a radix cache within the key. -/
theorem Decoded.releases_eq_zero (h : Decoded t.pageSize false kv log n)
    (hp : t.keysLen n ≤ p) : releases t.pageSize (log.map Prod.snd) p = 0 := by
  have hk := h.pageSize
  by_contra hne
  obtain ⟨e, he, -, -, hi, ⟨m, rfl⟩, hlt, hthr⟩ := (h.evictions.evicted hk).of_released hk hne
  obtain ⟨hchunk, hpre⟩ := h.calls e he
  have hle := ((e.1.evictThreshold_le t.pageSize).2 hchunk).1
  rw [mul_comm] at hlt hthr
  have hm : m * t.pageSize ≤ t.keysLen n := by
    refine Nat.mul_le_mul_right _ ((Nat.le_div_iff_mul_le hk).2 ?_)
    split_ifs <;> omega
  omega

theorem PureSWARadixCache.Accounts.eq_one (h : t.Accounts insert isInsert kv log n)
    (hp : kv.cacheProtectedLen ≤ p) (hpn : p < n) :
    accounted t.pageSize (t.cacheFinishedReq insert kv isInsert n) log p = 1 := by
  have hk := h.decoded.pageSize
  have hev := h.decoded.evictions.evicted hk
  have hrel := hev.releases_eq hk hp
  have hkeys := h.keys
  obtain ⟨hfloor, hprefix⟩ := h.decoded.prefilled
  have hshield : kv.swaEvictFloor ≤ shield t.pageSize kv.swaEvictFloor := le_ceilDiv_mul hk
  have hceil : (if 1 < t.pageSize ∧ 0 < kv.swaEvictFloor then
      ceilDiv kv.swaEvictFloor t.pageSize * t.pageSize else kv.swaEvictFloor) =
      shield t.pageSize kv.swaEvictFloor := by
    simpa [swaDeadLo] using @swaDeadLo_eq _ kv.swaEvictFloor hk _ (dvd_zero t.pageSize)
  have hkS : t.pageSize ∣ shield t.pageSize kv.swaEvictFloor := dvd_mul_left _ _
  have htail := h.tail
  have hmoved := (em (log = [])).imp hev.fresh hev.dead_le
  have hdead := hev.dead_le
  generalize shield t.pageSize kv.swaEvictFloor = S at hrel hshield hceil hkS htail hmoved hdead
  have hkK : t.pageSize ∣ t.keysLen n := dvd_mul_left _ _
  have hin : ¬ (t.keysLen n ≤ p ∧ S ≤ p ∧ p < kv.swaEvictedSeqlen) := by
    intro hin
    rw [h.decoded.releases_eq_zero hin.1, if_pos hin.2] at hrel
    omega
  have hpos : 0 < S := by omega
  have hkend : t.pageSize ∣ min S (t.keysLen n) := by
    rcases min_choice S (t.keysLen n) with h | h <;> rw [h] <;> assumption
  have hlast := touches_range hk hkK (.inr hpn)
  by_cases hd : t.disable = true
  · simp [accounted, cacheFinishedReq, hd, h.enabled hd,
      touches_range hk (dvd_zero _) (.inr hpn), hpn]
  by_cases hb : (isInsert && !t.disableFinishedInsert) = true ∧ 0 < min S (t.keysLen n)
  · obtain ⟨hi1, hi2, hi3⟩ := h.holds _ (by omega) hkend
    simp only [accounted, cacheFinishedReq, if_neg hd, hceil, if_pos hpos, if_pos hb,
      cons_append, nil_append, releases_cons, hlast, hrel,
      touches_ite hk hev.protectedLen (.inl hi3),
      touches_ite hk (dvd_max hev.cursor hkend) (.inl hkK)]
    split_ifs <;> omega
  · have hend : S ≤ kv.swaEvictedSeqlen ∨ t.keysLen n ≤ S := by
      rcases htail with he | htail
      · have hzero := Nat.eq_zero_of_not_pos fun hpos => hb ⟨he, hpos⟩
        omega
      · exact htail.imp_left hdead
    simp only [accounted, cacheFinishedReq, if_neg hd, hceil, if_pos hpos, if_neg hb,
      cons_append, nil_append, releases_cons, hlast, hrel,
      touches_ite hk hev.protectedLen (.inl hkend),
      touches_ite hk (dvd_max hev.cursor hev.protectedLen) (.inl hkK)]
    split_ifs <;> omega

/-- The page of the floor is given back whole, by the part before the floor. -/
theorem touches_shield (hk : 0 < k) (hc : k ∣ kv.cacheProtectedLen) (hfloor : 0 < kv.swaEvictFloor)
    (hp : kv.cacheProtectedLen ≤ p) : Touches k p (if kv.cacheProtectedLen < kv.swaEvictFloor then
      [(kv.cacheProtectedLen, kv.swaEvictFloor)] else []) ↔ p < shield k kv.swaEvictFloor := by
  split_ifs with hlt
  · constructor
    · rintro ⟨r, hr, q, hq, -, hpage⟩
      obtain rfl := mem_singleton.1 hr
      exact lt_of_same_page hk (dvd_mul_left k _) (hq.trans_le (le_ceilDiv_mul hk)) hpage
    intro hp'
    by_cases hpf : p < kv.swaEvictFloor
    · exact touches_of_mem (mem_singleton_self _) hp hpf
    refine ⟨_, mem_singleton_self _, kv.swaEvictFloor - 1, by omega, by omega, ?_⟩
    refine le_antisymm (Nat.div_le_div_right (by omega)) (Nat.le_of_lt_succ ?_)
    have := (Nat.div_lt_iff_lt_mul hk).2 hp'
    rwa [ceilDiv, show kv.swaEvictFloor + k - 1 = kv.swaEvictFloor - 1 + k by omega,
      Nat.add_div_right _ hk] at this
  · simpa using (shield_le hk hc (Nat.le_of_not_lt hlt)).trans hp

theorem PureSWAChunkCache.releases_eq_one (h : Decoded k true kv log n)
    (hp : kv.cacheProtectedLen ≤ p) (hpn : p < n) :
    releases k (cacheFinishedReq kv n :: log.map Prod.snd) p = 1 := by
  have hk := h.pageSize
  have hev := h.evictions.evicted hk
  have hshield : kv.swaEvictFloor ≤ shield k kv.swaEvictFloor := le_ceilDiv_mul hk
  rw [releases_cons, hev.releases_eq hk hp, cacheFinishedReq]
  by_cases hcur : kv.swaEvictFloor < kv.swaEvictedSeqlen
  · simp only [if_pos hcur, touches_append, touches_shield hk hev.protectedLen h.prefilled.1 hp,
      touches_ite hk (dvd_max hev.cursor hev.protectedLen) (.inr hpn)]
    split_ifs <;> omega
  · simp only [if_neg hcur, touches_range hk hev.protectedLen (.inr hpn)]
    split_ifs <;> omega

/-- A finished request of an all-SWA model: each of its own positions goes to the tree or is
released, once. -/
theorem pure_swa_accounts_for_finished_req (kv : ReqKvInfo) (log : Log) (n : Nat) :
    (∀ (t : PureSWARadixCache) insert isInsert, t.Accounts insert isInsert kv log n →
      ∀ p, kv.cacheProtectedLen ≤ p → p < n →
        accounted t.pageSize (t.cacheFinishedReq insert kv isInsert n) log p = 1) ∧
    ∀ k, Decoded k true kv log n → ∀ p, kv.cacheProtectedLen ≤ p → p < n →
      releases k (PureSWAChunkCache.cacheFinishedReq kv n :: log.map Prod.snd) p = 1 :=
  ⟨fun _ _ _ h _ => h.eq_one, fun _ h _ => PureSWAChunkCache.releases_eq_one h⟩

/-- A request of two prompt tokens and one decoded one, never evicted. -/
theorem short_request : Decoded 1 false ⟨some 0, 2, 2, 0⟩ [] 3 :=
  ⟨one_pos, .start (one_dvd 2), nofun, by decide, by decide⟩

/-- Finished without an insert, its decoded token is neither kept nor released. -/
theorem short_request_leaks : ∃ kv log, Decoded 1 false kv log 3 ∧
    kv.cacheProtectedLen ≤ 2 ∧ Holds 1 kv id ∧
    accounted 1 (PureSWARadixCache.cacheFinishedReq ⟨1, false, false, false⟩ id kv false 3) log 2
      = 0 :=
  ⟨_, _, short_request, by decide, fun n h _ => ⟨h, le_rfl, one_dvd n⟩, by decide⟩

theorem short_request_inserted :
    accounted 1 (PureSWARadixCache.cacheFinishedReq ⟨1, false, false, false⟩ id
      ⟨some 0, 2, 2, 0⟩ true 3) [] 2 = 1 :=
  (pure_swa_accounts_for_finished_req _ [] 3).1 ⟨1, false, false, false⟩ id true
    ⟨short_request, by decide, fun n h _ => ⟨h, le_rfl, one_dvd n⟩, nofun, .inl rfl⟩ 2
    (by decide) (by decide)

end SparkInfer.Alloc.Window
