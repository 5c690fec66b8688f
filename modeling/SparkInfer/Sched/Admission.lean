import SparkInfer.Sched.PrefillAdder
import SparkInfer.Radix.System
import SparkInfer.Alloc.Pages
import Mathlib.Algebra.Order.BigOperators.Group.Finset
import Mathlib.Algebra.Order.BigOperators.Group.List
import Mathlib.Tactic.Linarith

/-!
# Admission stays within the memory it was measured against

Every admitted request charges its page-rounded input and one page more to
`rem_total_token_offset`, so the pages of the batch never exceed the offset; a
gate compares the offset with the live total after the request's node is locked.
-/

namespace SparkInfer.Sched

open Lib Alloc Alloc.Paged Radix List Finset

variable {allow : Bool} {align : Option Nat}
variable {n : Int} {x : Option WaitingReq} {res : AddReqResult} {prefixLen : Nat} {H B : Type}
variable {hf : HashFns H B} {nodes : Finset NodeId} {held held' : List NodeId}

section Rounding

variable {p n m : Nat}

theorem ceilDiv_add_le (hp : 0 < p) : ceilDiv (n + m) p ≤ ceilDiv n p + ceilDiv m p := by
  rw [ceilDiv_le_iff hp, add_mul]
  exact add_le_add (le_ceilDiv_mul hp) (le_ceilDiv_mul hp)

theorem ceilDiv_mul_lt (hp : 0 < p) : ceilDiv n p * p < n + p := by
  unfold ceilDiv
  have h := Nat.div_mul_le_self (n + p - 1) p
  omega

theorem numNewPages_le (hp : 0 < p) : numNewPages p prefixLen (prefixLen + n) ≤ ceilDiv n p := by
  unfold numNewPages
  have h : ceilDiv (prefixLen + n) p ≤ ceilDiv prefixLen p + ceilDiv n p := ceilDiv_add_le hp
  omega

end Rounding

section Relock

variable {cfg : Config} {c c₁ c₂ c₃ : RadixCache H B}
variable {n : NodeId} {d d₁ d₂ d₃ : Int}

structure Relocked (cfg : Config) (hf : HashFns H B) (nodes : Finset NodeId)
    (c c' : RadixCache H B) (held' : List NodeId) : Prop where
  skeleton : c'.tree.toSkeleton = c.tree.toSkeleton
  allocator : c'.allocator = c.allocator
  inv : Inv cfg hf c' nodes held'

/-- The locks held once `inc_lock_ref` was called on `n`; a disabled cache ignores
the call. -/
def taken (cfg : Config) (n : NodeId) (held : List NodeId) : List NodeId :=
  if cfg.disable = true then held else n :: held

theorem Relocked.trans (h : Relocked cfg hf nodes c c₁ held) (h' : Relocked cfg hf nodes c₁ c₂ held') :
    Relocked cfg hf nodes c c₂ held' :=
  ⟨h'.skeleton.trans h.skeleton, h'.allocator.trans h.allocator, h'.inv⟩

theorem incLockRef_relocked (h : Inv cfg hf c nodes held) (hn : n ∈ nodes)
    (hrun : c.incLockRef cfg n = .ok (c₁, d)) : Relocked cfg hf nodes c c₁ (taken cfg n held) := by
  cases hen : cfg.disable with
  | true =>
    simp only [RadixCache.incLockRef, hen] at hrun
    obtain ⟨rfl, rfl⟩ := hrun
    exact ⟨rfl, rfl, by rwa [taken, if_pos hen]⟩
  | false =>
    obtain ⟨t', delta, hok, hskel, -, hinv⟩ := incLockRef_spec h hen hn
    rw [hok, Except.ok.injEq] at hrun
    obtain ⟨rfl, rfl⟩ := hrun
    exact ⟨hskel, rfl, by rwa [taken, if_neg (by simp [hen])]⟩

theorem decLockRef_relocked (h : Inv cfg hf c nodes (taken cfg n held))
    (hrun : c.decLockRef cfg n = .ok (c₁, d)) : Relocked cfg hf nodes c c₁ held := by
  cases hen : cfg.disable with
  | true =>
    simp only [RadixCache.decLockRef, hen] at hrun
    obtain ⟨rfl, rfl⟩ := hrun
    exact ⟨rfl, rfl, by rwa [taken, if_pos hen] at h⟩
  | false =>
    rw [taken, if_neg (by simp [hen])] at h
    obtain ⟨t', delta, hok, hskel, -, hinv⟩ := decLockRef_spec h hen mem_cons_self
    rw [hok, Except.ok.injEq] at hrun
    obtain ⟨rfl, rfl⟩ := hrun
    exact ⟨hskel, rfl, by rwa [erase_cons_head] at hinv⟩

theorem evictableSize_congr (h : Inv cfg hf c nodes held) (h' : Inv cfg hf c₁ nodes held)
    (hskel : c₁.tree.toSkeleton = c.tree.toSkeleton) :
    c₁.tree.evictableSize = c.tree.evictableSize := by
  rw [h.sized.evictable, h'.sized.evictable]
  have hroot := congrArg Skeleton.rootNode hskel
  unfold sizeWhere
  rw [hroot]
  apply sum_congr rfl
  intro x hx
  have hmem := mem_of_mem_erase hx
  have hne := ne_of_mem_erase hx
  rw [h.locked.cover x hmem hne, h'.locked.cover x hmem (hroot ▸ hne), hskel]

end Relock

/-- Page size one, no limits besides memory. -/
def AdderConfig.small : AdderConfig where
  cache := .small
  clipMaxNewTokens := 4096
  prefillMaxRequests := none
  dsaPrefillCpInSeqSplit := false
  tileStop := fun _ _ => false

/-! ## Charges -/

def Admitted.need (pageSize : Nat) (x : Admitted) : Int :=
  (numNewPages pageSize x.req.prefixLen x.extendEnd.toNat * pageSize : Nat)

namespace PrefillAdder

variable {cfg : AdderConfig} {a a' : PrefillAdder H B} {r : WaitingReq} {kept : Int}

def needed (cfg : AdderConfig) (a : PrefillAdder H B) : Int :=
  (a.canRunList.map (Admitted.need cfg.cache.pageSize)).sum

section Ceil

variable {m : Int}

theorem ceilPagedTokens_eq (n : Nat) :
    ceilPagedTokens cfg n = (ceilDiv n cfg.cache.pageSize * cfg.cache.pageSize : Nat) := by
  have hp := cfg.cache.pageSize_pos
  have hle : n ≤ ceilDiv n cfg.cache.pageSize * cfg.cache.pageSize := le_ceilDiv_mul hp
  have hlt : ceilDiv n cfg.cache.pageSize * cfg.cache.pageSize < n + cfg.cache.pageSize :=
    ceilDiv_mul_lt hp
  have hdiv : -(n : Int) / cfg.cache.pageSize = -(ceilDiv n cfg.cache.pageSize : Nat) := by
    rw [Int.ediv_eq_iff_of_pos (by omega)]
    constructor <;> linarith
  rw [ceilPagedTokens, hdiv]
  push_cast
  ring

theorem le_ceilPagedTokens : n ≤ ceilPagedTokens cfg n := by
  have hp := cfg.cache.pageSize_pos
  have h := Int.ediv_mul_le (-n) (b := cfg.cache.pageSize) (by omega)
  unfold ceilPagedTokens
  linarith

theorem ceilPagedTokens_lt (n : Int) : ceilPagedTokens cfg n < n + cfg.cache.pageSize := by
  have hp := cfg.cache.pageSize_pos
  have h := Int.lt_ediv_add_one_mul_self (-n) (b := cfg.cache.pageSize) (by omega)
  unfold ceilPagedTokens
  linarith

theorem ceilPagedTokens_mono (h : m ≤ n) : ceilPagedTokens cfg m ≤ ceilPagedTokens cfg n := by
  have hp := cfg.cache.pageSize_pos
  have hdiv : -n / cfg.cache.pageSize ≤ -m / cfg.cache.pageSize :=
    Int.ediv_le_ediv (by omega) (by omega)
  exact mul_le_mul_of_nonneg_right (by omega) (by omega)

theorem ceilPagedTokens_le_of_dvd (h : n ≤ m) (hdvd : (cfg.cache.pageSize : Int) ∣ m) :
    ceilPagedTokens cfg n ≤ m := by
  calc ceilPagedTokens cfg n ≤ ceilPagedTokens cfg m := ceilPagedTokens_mono h
    _ = m := by
      rw [ceilPagedTokens, Int.neg_ediv_of_dvd hdvd, neg_neg, Int.ediv_mul_cancel hdvd]

theorem need_le (hn : 0 ≤ n) :
    Admitted.need cfg.cache.pageSize ⟨r, r.prefixLen + n⟩ ≤ ceilPagedTokens cfg n := by
  obtain ⟨k, rfl⟩ := Int.eq_ofNat_of_zero_le hn
  rw [ceilPagedTokens_eq]
  apply Int.ofNat_le.mpr
  apply Nat.mul_le_mul_right
  exact numNewPages_le cfg.cache.pageSize_pos

end Ceil

/-- `a'` is `a` with `n` tokens of `r` admitted and charged. -/
structure Admits (cfg : AdderConfig) (a a' : PrefillAdder H B) (r : WaitingReq) (n : Int) :
    Prop where
  nonneg : 0 ≤ n
  runs : a'.canRunList = a.canRunList ++ [⟨r, r.prefixLen + n⟩]
  charge : a.remTotalTokenOffset + ((ceilPagedTokens cfg n + cfg.cache.pageSize : Int) : ℚ) ≤
    a'.remTotalTokenOffset
  charge_le : a'.remTotalTokenOffset ≤ a.remTotalTokenOffset +
    ((ceilPagedTokens cfg r.candExtendInputLen + min r.maxNewTokens cfg.clipMaxNewTokens +
      cfg.cache.pageSize : Int) : ℚ)
  cur_le : a'.curRemTokenOffset ≤ a.curRemTokenOffset +
    (ceilPagedTokens cfg r.candExtendInputLen + cfg.cache.pageSize)

/-- The state of a pass: what was admitted is covered by the charges, and by the
memory that is there, on top of the `kept` tokens the offset started with. -/
structure Within (cfg : AdderConfig) (hf : HashFns H B) (nodes : Finset NodeId) (kept : Int)
    (held : List NodeId) (a : PrefillAdder H B) : Prop where
  inv : Inv cfg.cache hf a.cache nodes held
  pages : a.cache.allocator.pageSize = cfg.cache.pageSize
  kept_dvd : (cfg.cache.pageSize : Int) ∣ kept
  charged : ((kept + a.needed cfg + cfg.cache.pageSize * a.canRunList.length : Int) : ℚ) ≤
    a.remTotalTokenOffset
  fits : a.canRunList ≠ [] → kept + a.needed cfg ≤ a.availableAndEvictable

section Within

theorem Admits.needed_le (had : Admits cfg a a' r n) :
    a'.needed cfg ≤ a.needed cfg + ceilPagedTokens cfg n := by
  have h : Admitted.need cfg.cache.pageSize ⟨r, r.prefixLen + n⟩ ≤ ceilPagedTokens cfg n :=
    need_le had.nonneg
  rw [needed, had.runs, map_append, sum_append, List.map_singleton]
  exact Int.add_le_add_left h _

variable (h : Within cfg hf nodes kept held a)
include h

theorem Within.admitReq (had : Admits cfg a a' r n)
    (hre : Relocked cfg.cache hf nodes a.cache a'.cache held')
    (hroom : kept + a.needed cfg + ceilPagedTokens cfg n ≤ a'.availableAndEvictable) :
    Within cfg hf nodes kept held' a' where
  inv := hre.inv
  pages := by rw [hre.allocator, h.pages]
  kept_dvd := h.kept_dvd
  charged := by
    have hneed := had.needed_le
    have hlen : a'.canRunList.length = a.canRunList.length + 1 := by
      rw [had.runs, length_append, length_singleton]
    calc ((kept + a'.needed cfg + cfg.cache.pageSize * a'.canRunList.length : Int) : ℚ)
        ≤ ((kept + a.needed cfg + cfg.cache.pageSize * a.canRunList.length +
            (ceilPagedTokens cfg n + cfg.cache.pageSize) : Int) : ℚ) := by
          rw [hlen]
          apply Int.cast_le.mpr
          push_cast
          linarith
      _ ≤ a.remTotalTokenOffset + ((ceilPagedTokens cfg n + cfg.cache.pageSize : Int) : ℚ) := by
          rw [Int.cast_add (kept + a.needed cfg + _)]
          have := h.charged
          linarith
      _ ≤ a'.remTotalTokenOffset := had.charge
  fits _ := by
    have hneed := had.needed_le
    omega

theorem Within.needed_le_offset : ((kept + a.needed cfg : Int) : ℚ) ≤ a.remTotalTokenOffset := by
  have hnn : (0 : ℚ) ≤ (cfg.cache.pageSize * a.canRunList.length : Int) := by
    positivity
  have := h.charged
  rw [Int.cast_add (kept + a.needed cfg)] at this
  linarith

omit h in
theorem evictable_dvd (h : Inv cfg.cache hf a.cache nodes held) :
    (cfg.cache.pageSize : Int) ∣ a.cache.tree.evictableSize := by
  rw [h.sized.evictable]
  apply Finset.dvd_sum
  intro x hx
  split
  · have hdvd := h.shape.dvd_len (mem_of_mem_erase hx) (ne_of_mem_erase hx)
    exact Int.natCast_dvd_natCast.mpr hdvd
  · exact dvd_zero _

theorem Within.nonneg : 0 ≤ a.availableAndEvictable := by
  have hevict : 0 ≤ a.cache.tree.evictableSize := by
    rw [h.inv.sized.evictable]
    exact sum_nonneg fun x _ => by split <;> omega
  exact Int.add_nonneg (Int.natCast_nonneg _) hevict

theorem Within.dvd : (cfg.cache.pageSize : Int) ∣ a.availableAndEvictable := by
  have havail : (cfg.cache.pageSize : Int) ∣ a.cache.allocator.availableSize := by
    rw [← h.pages]
    exact Int.natCast_dvd_natCast.mpr (Nat.dvd_mul_left _ _)
  exact dvd_add havail (evictable_dvd h.inv)

end Within

/-! ## `add_chunked_req` -/

theorem candExtendInputLen_nonneg (r : WaitingReq) : 0 ≤ r.candExtendInputLen := by
  have := r.prefix_le
  unfold WaitingReq.candExtendInputLen WaitingReq.fillLen
  omega

theorem truncate_le {x : ℚ} (h : 0 < truncate x) : (truncate x : ℚ) ≤ x := by
  by_cases hx : 0 ≤ x
  · rw [truncate, if_pos hx]
    exact Int.floor_le x
  · rw [truncate, if_neg hx] at h
    have hceil : ⌈x⌉ ≤ 0 := Int.ceil_le.mpr (by push_cast; linarith)
    omega

theorem admits_update {extend maxNew : Int} (hn : 0 ≤ n) (hle : n ≤ extend)
    (hceil : ceilPagedTokens cfg extend ≤ ceilPagedTokens cfg r.candExtendInputLen)
    (hmax : 0 ≤ maxNew) (hclip : maxNew ≤ min (r.maxNewTokens : Int) cfg.clipMaxNewTokens)
    {b : PrefillAdder H B} (hruns : b.canRunList = (a.admitReq r n).canRunList)
    (hoff : b.remTotalTokenOffset = a.remTotalTokenOffset)
    (hcur : b.curRemTokenOffset = a.curRemTokenOffset) :
    Admits cfg a (b.updatePrefillBudget cfg extend maxNew) r n := by
  have hmono : ceilPagedTokens cfg n ≤ ceilPagedTokens cfg extend := ceilPagedTokens_mono hle
  refine ⟨hn, hruns, ?_, ?_, ?_⟩ <;> simp only [updatePrefillBudget]
  · have hcast : ((ceilPagedTokens cfg n + cfg.cache.pageSize : Int) : ℚ) ≤
        ((ceilPagedTokens cfg extend + maxNew + cfg.cache.pageSize : Int) : ℚ) :=
      Int.cast_le.mpr (by omega)
    linarith
  · have hcast : ((ceilPagedTokens cfg extend + maxNew + cfg.cache.pageSize : Int) : ℚ) ≤
        ((ceilPagedTokens cfg r.candExtendInputLen + min r.maxNewTokens cfg.clipMaxNewTokens +
          cfg.cache.pageSize : Int) : ℚ) :=
      Int.cast_le.mpr (by omega)
    linarith
  · omega

theorem addChunkedReq_admits (hfb : ¬ a.FallbackTaken) (hrun : a.addChunkedReq cfg r = .ok (a', x)) :
    ∃ n, Admits cfg a a' r n ∧ (n : ℚ) ≤ a.remTotalTokens ∧ a'.cache = a.cache := by
  unfold FallbackTaken at hfb
  push Not at hfb
  obtain ⟨chunk, hchunk, hpos⟩ := hfb
  have htrunc : 0 < truncate a.remTotalTokens := hpos.trans_le (min_le_right _ _)
  have hcand := candExtendInputLen_nonneg r
  simp only [addChunkedReq, hchunk, if_neg (not_le.mpr hpos)] at hrun
  obtain ⟨rfl, -⟩ := hrun
  have hclip : ∀ b : Bool, 0 ≤ (if b then 0 else min (r.maxNewTokens : Int) cfg.clipMaxNewTokens) ∧
      (if b then 0 else min (r.maxNewTokens : Int) cfg.clipMaxNewTokens) ≤
        min (r.maxNewTokens : Int) cfg.clipMaxNewTokens := by
    intro b
    cases b <;> simp
  refine ⟨_, admits_update (le_min hcand hpos.le) le_rfl (ceilPagedTokens_mono (min_le_left _ _))
    (hclip _).1 (hclip _).2 rfl rfl rfl, ?_, rfl⟩
  · calc ((min r.candExtendInputLen (min chunk (truncate a.remTotalTokens)) : Int) : ℚ)
        ≤ (truncate a.remTotalTokens : ℚ) :=
          Int.cast_le.mpr ((min_le_right _ _).trans (min_le_right _ _))
      _ ≤ a.remTotalTokens := truncate_le htrunc

section Steps

theorem cast_le_remTotalTokens : (n : ℚ) ≤ a.remTotalTokens ↔
    (n : ℚ) + a.remTotalTokenOffset ≤ a.availableAndEvictable := by
  unfold remTotalTokens
  constructor <;> intro h <;> linarith

section

variable (h : Within cfg hf nodes kept held a)
include h

/-- The first request has only whole pages to fit into; a later one is covered by
the page that was charged on top for the request before it. -/
theorem Within.room_of_le_remTotalTokens (hn : (n : ℚ) ≤ a.remTotalTokens) :
    kept + a.needed cfg + ceilPagedTokens cfg n ≤ a.availableAndEvictable := by
  rw [cast_le_remTotalTokens] at hn
  cases hlist : a.canRunList with
  | nil =>
    have hzero : a.needed cfg = 0 := by rw [needed, hlist]; rfl
    have hoff := h.needed_le_offset
    rw [hzero, add_zero] at hoff
    have hle : n ≤ a.availableAndEvictable - kept := by
      apply Int.cast_le (R := ℚ) |>.mp
      rw [Int.cast_sub]
      linarith
    have hceil := ceilPagedTokens_le_of_dvd hle (dvd_sub h.dvd h.kept_dvd)
    omega
  | cons x rest =>
    have hlen : 1 ≤ a.canRunList.length := by rw [hlist, length_cons]; omega
    have hpage : cfg.cache.pageSize ≤ cfg.cache.pageSize * a.canRunList.length := by
      nlinarith
    have hceil : ceilPagedTokens cfg n < n + cfg.cache.pageSize := ceilPagedTokens_lt n
    have hcharged : ((kept + a.needed cfg + cfg.cache.pageSize : Int) : ℚ) ≤ a.remTotalTokenOffset :=
      (Int.cast_le.mpr (by omega)).trans h.charged
    have hle : kept + a.needed cfg + cfg.cache.pageSize + n ≤ a.availableAndEvictable := by
      apply Int.cast_le (R := ℚ) |>.mp
      rw [Int.cast_add]
      linarith
    omega

omit h in
theorem room_of_charge (hoff : ((kept + a.needed cfg : Int) : ℚ) ≤ a.remTotalTokenOffset)
    (hn : (n : ℚ) ≤ a.remTotalTokens) : kept + a.needed cfg + n ≤ a.availableAndEvictable := by
  rw [cast_le_remTotalTokens] at hn
  apply Int.cast_le (R := ℚ) |>.mp
  rw [Int.cast_add]
  linarith

theorem Within.addChunkedReq (hfb : ¬ a.FallbackTaken)
    (hrun : a.addChunkedReq cfg r = .ok (a', x)) : Within cfg hf nodes kept held a' := by
  obtain ⟨n, had, hn, hcache⟩ := addChunkedReq_admits hfb hrun
  have hre : Relocked cfg.cache hf nodes a.cache a'.cache held := by
    rw [hcache]
    exact ⟨rfl, rfl, h.inv⟩
  have hsame : a'.availableAndEvictable = a.availableAndEvictable := by
    unfold availableAndEvictable
    rw [hcache]
  apply h.admitReq had hre
  rw [hsame]
  exact h.room_of_le_remTotalTokens hn

/-- A call that admits nothing may still record `req_states`. -/
structure Unchanged (a a' : PrefillAdder H B) : Prop where
  cache : a'.cache = a.cache
  runs : a'.canRunList = a.canRunList
  offset : a'.remTotalTokenOffset = a.remTotalTokenOffset

theorem Within.unchanged (hu : Unchanged a a') : Within cfg hf nodes kept held a' where
  inv := hu.cache ▸ h.inv
  pages := hu.cache ▸ h.pages
  kept_dvd := h.kept_dvd
  charged := by
    rw [needed, hu.runs, hu.offset]
    exact h.charged
  fits := by
    rw [needed, availableAndEvictable, hu.runs, hu.cache]
    exact h.fits

end

def ShortOfTokens (cfg : AdderConfig) (a : PrefillAdder H B) (r : WaitingReq) : Prop :=
  min (a.curRemTokens : ℚ) a.remTotalTokens < ceilPagedTokens cfg r.candExtendInputLen ∨
    runsShort ((a.curRemTokens - ceilPagedTokens cfg r.candExtendInputLen : Int) : ℚ) 0
      (a.statesWith r) = true

theorem addOneReqIgnoreEos_cases (hrun : a.addOneReqIgnoreEos cfg r allow = .ok (a', res)) :
    (Unchanged a a' ∧ (res = .other ∨ res = .noToken ∧ a.ShortOfTokens cfg r)) ∨
    ∃ n, Admits cfg a a' r n ∧ n ≤ r.candExtendInputLen ∧ a'.cache = a.cache ∧
      (ceilPagedTokens cfg r.candExtendInputLen : ℚ) ≤ a.remTotalTokens ∧ res = a'.budgetState := by
  have hcand := candExtendInputLen_nonneg r
  have hmax : 0 ≤ min (r.maxNewTokens : Int) cfg.clipMaxNewTokens := by omega
  have hother : ∀ states, Unchanged a { a with reqStates := states } ∧
      (AddReqResult.other = .other ∨ AddReqResult.other = .noToken ∧ a.ShortOfTokens cfg r) :=
    fun _ => ⟨⟨rfl, rfl, rfl⟩, .inl rfl⟩
  simp only [addOneReqIgnoreEos] at hrun
  split at hrun
  · rename_i hgate
    cases hrun
    exact .inl ⟨⟨rfl, rfl, rfl⟩, .inr ⟨rfl, .inl hgate⟩⟩
  rename_i hgate
  have hroom : (ceilPagedTokens cfg r.candExtendInputLen : ℚ) ≤ a.remTotalTokens :=
    (not_lt.mp hgate).trans (min_le_right _ _)
  split at hrun
  · rename_i hshort
    cases hrun
    exact .inl ⟨⟨rfl, rfl, rfl⟩, .inr ⟨rfl, .inr hshort⟩⟩
  split at hrun
  · cases hrun
    exact .inl (hother _)
  split at hrun
  · split at hrun <;> cases hrun
    · exact .inl (hother _)
    · exact .inr ⟨_, admits_update hcand le_rfl le_rfl hmax le_rfl rfl rfl rfl, le_rfl, rfl,
        hroom, rfl⟩
  rename_i chunk hchunk
  split at hrun
  · split at hrun <;> cases hrun
    · exact .inl (hother _)
    · exact .inr ⟨_, admits_update hcand le_rfl le_rfl hmax le_rfl rfl rfl rfl, le_rfl, rfl,
        hroom, rfl⟩
  split at hrun
  · cases hrun
    exact .inl (hother _)
  split at hrun
  · cases hrun
    exact .inl (hother _)
  split at hrun
  · cases hrun
  · cases hrun
    exact .inr ⟨chunk, admits_update (by omega) le_rfl (ceilPagedTokens_mono (by omega)) le_rfl
      hmax rfl rfl rfl, by omega, rfl, hroom, rfl⟩

theorem Within.addOneReqIgnoreEos (h : Within cfg hf nodes kept held a)
    (hrun : a.addOneReqIgnoreEos cfg r allow = .ok (a', res)) : Within cfg hf nodes kept held a' := by
  obtain ⟨hu, -⟩ | ⟨n, had, hn, hcache, hroom, -⟩ := addOneReqIgnoreEos_cases hrun
  · exact h.unchanged hu
  apply h.admitReq had (by rw [hcache]; exact ⟨rfl, rfl, h.inv⟩)
  rw [availableAndEvictable, hcache]
  have hceil : ceilPagedTokens cfg n ≤ ceilPagedTokens cfg r.candExtendInputLen :=
    ceilPagedTokens_mono hn
  exact (Int.add_le_add_left hceil _).trans (room_of_charge h.needed_le_offset hroom)

/-! ## `add_one_req` -/

theorem truncLen_bounds {limit trunc : Int} (h : truncLen cfg limit align prefixLen = some trunc) :
    0 < trunc ∧ trunc ≤ limit := by
  have hp : (0 : Int) < cfg.cache.pageSize := by exact_mod_cast cfg.cache.pageSize_pos
  have hfloor : ∀ x : Int, x / cfg.cache.pageSize * cfg.cache.pageSize ≤ x := fun x =>
    Int.ediv_mul_le x hp.ne'
  have hlast : ∀ x : Int, x ≤ limit → (if (x + prefixLen) / cfg.cache.pageSize *
      cfg.cache.pageSize - prefixLen ≤ 0 then none else some ((x + prefixLen) /
      cfg.cache.pageSize * cfg.cache.pageSize - prefixLen)) = some trunc →
      0 < trunc ∧ trunc ≤ limit := by
    intro x hx hsome
    have := hfloor (x + prefixLen)
    split at hsome
    · cases hsome
    · cases hsome
      omega
  have hlimit := hfloor limit
  simp only [truncLen] at h
  split at h
  · cases h
  cases align with
  | none => exact hlast _ hlimit h
  | some k =>
    simp only at h
    split at h
    · cases h
    rename_i x hx
    split at hx
    · cases hx
    cases hx
    refine hlast _ (le_trans ?_ hlimit) h
    rcases eq_zero_or_pos k with rfl | hk
    · omega
    · rw [mul_comm]
      exact Int.ediv_mul_le _ (by omega)

structure AdmitsLocked (cfg : AdderConfig) (a a' : PrefillAdder H B) (r : WaitingReq) (n : Int)
    (total : Int) : Prop extends Admits cfg a a' r n where
  ceil_le : ceilPagedTokens cfg n ≤ ceilPagedTokens cfg r.candExtendInputLen
  gate : (total : ℚ) < a.remTotalTokens
  locked : ∃ d, a.cache.incLockRef cfg.cache r.lastNode = .ok (a'.cache, d)

theorem addLocked_cases {total : Int}
    {res : Option AddReqResult} (hrun : a.addLocked cfg r align allow total = .ok (a', res)) :
    (a' = a ∧ (res = some .other ∨ res = some .noToken ∧ a.remTotalTokens ≤ total)) ∨
    ∃ n, AdmitsLocked cfg a a' r n total ∧ res = none := by
  have hcand := candExtendInputLen_nonneg r
  have hle : r.candExtendInputLen ≤ ceilPagedTokens cfg r.candExtendInputLen := le_ceilPagedTokens
  have hidem : ceilPagedTokens cfg (ceilPagedTokens cfg r.candExtendInputLen) ≤
      ceilPagedTokens cfg r.candExtendInputLen :=
    ceilPagedTokens_le_of_dvd le_rfl (Dvd.intro_left _ rfl)
  have hmax : 0 ≤ min (r.maxNewTokens : Int) cfg.clipMaxNewTokens := by omega
  simp only [addLocked] at hrun
  split at hrun
  · rename_i hgate
    cases hrun
    exact .inl ⟨rfl, .inr ⟨rfl, hgate⟩⟩
  rename_i hgate
  have hgate := not_le.mp hgate
  split at hrun
  · cases hrun
    exact .inl ⟨rfl, .inl rfl⟩
  split at hrun
  · cases hrun
    exact .inl ⟨rfl, .inl rfl⟩
  split at hrun
  · split at hrun
    · cases hrun
      exact .inl ⟨rfl, .inl rfl⟩
    obtain ⟨⟨cache, d⟩, hinc, hrest⟩ := bind_ok hrun
    cases hrest
    exact .inr ⟨_, ⟨admits_update hcand hle hidem hmax le_rfl rfl rfl rfl, le_rfl, hgate, d,
      hinc⟩, rfl⟩
  split at hrun
  · split at hrun
    · cases hrun
      exact .inl ⟨rfl, .inl rfl⟩
    obtain ⟨⟨cache, d⟩, hinc, hrest⟩ := bind_ok hrun
    cases hrest
    exact .inr ⟨_, ⟨admits_update hcand hle hidem hmax le_rfl rfl rfl rfl, le_rfl, hgate, d,
    hinc⟩, rfl⟩
  split at hrun
  · cases hrun
    exact .inl ⟨rfl, .inl rfl⟩
  rename_i trunc htrunc
  obtain ⟨hpos, hbound⟩ := truncLen_bounds htrunc
  split at hrun
  · cases hrun
    exact .inl ⟨rfl, .inl rfl⟩
  obtain ⟨⟨cache, d⟩, hinc, hrest⟩ := bind_ok hrun
  cases hrest
  have hceil : ceilPagedTokens cfg trunc ≤ ceilPagedTokens cfg r.candExtendInputLen :=
    ceilPagedTokens_le_of_dvd (by omega) (Dvd.intro_left _ rfl)
  exact .inr ⟨trunc, ⟨admits_update hpos.le le_rfl hceil le_rfl hmax rfl rfl rfl, hceil,
    hgate, d, hinc⟩, rfl⟩

def totalTokens (cfg : AdderConfig) (r : WaitingReq) : Int :=
  r.candExtendInputLen + min (max ((r.maxNewTokens : Int) - r.outputLen) 0) cfg.clipMaxNewTokens +
    cfg.cache.pageSize

/-- The request's node is locked for the gate, once more if the request is admitted,
and released once. -/
structure UnderLock (cfg : AdderConfig) (a a' : PrefillAdder H B) (r : WaitingReq)
    (align : Option Nat) (allow : Bool) (res : AddReqResult) (c₁ c₃ : RadixCache H B)
    (b : PrefillAdder H B) (answer : Option AddReqResult) : Prop where
  inc : ∃ d, a.cache.incLockRef cfg.cache r.lastNode = .ok (c₁, d)
  body : ({ a with cache := c₁ } : PrefillAdder H B).addLocked cfg r align allow
    (totalTokens cfg r) = .ok (b, answer)
  dec : ∃ d, b.cache.decLockRef cfg.cache r.lastNode = .ok (c₃, d)
  final : a' = { b with cache := c₃ }
  result : res = answer.getD a'.budgetState

theorem addOneReq_cases (hrun : a.addOneReq cfg r align allow = .ok (a', res)) :
    (a' = a ∧ (res = .other ∨ res = .noToken ∧ a.remTotalTokens ≤ totalTokens cfg r)) ∨
    (r.ignoreEos = true ∧ cfg.cache.disable = true ∧
      a.addOneReqIgnoreEos cfg r allow = .ok (a', res)) ∨
    ∃ c₁ c₃ b answer, UnderLock cfg a a' r align allow res c₁ c₃ b answer := by
  simp only [addOneReq] at hrun
  split at hrun
  · cases hrun
    exact .inl ⟨rfl, .inl rfl⟩
  split at hrun
  · cases hrun
    exact .inl ⟨rfl, .inl rfl⟩
  split at hrun
  · rename_i heos
    exact .inr (.inl ⟨heos.1, heos.2, hrun⟩)
  split at hrun
  · rename_i hgate
    cases hrun
    exact .inl ⟨rfl, .inr ⟨rfl, hgate⟩⟩
  split at hrun
  · cases hrun
    exact .inl ⟨rfl, .inl rfl⟩
  obtain ⟨⟨c₁, d₁⟩, hinc, hrun⟩ := bind_ok hrun
  obtain ⟨⟨b, answer⟩, hbody, hrun⟩ := bind_ok hrun
  obtain ⟨⟨c₃, d₃⟩, hdec, hrun⟩ := bind_ok hrun
  cases hrun
  exact .inr (.inr ⟨c₁, c₃, b, answer, ⟨d₁, hinc⟩, hbody, ⟨d₃, hdec⟩, rfl, rfl⟩)

theorem ceil_cand_le {rem : ℚ} (h : (totalTokens cfg r : ℚ) < rem) :
    (ceilPagedTokens cfg r.candExtendInputLen : ℚ) ≤ rem := by
  have hlt : ceilPagedTokens cfg r.candExtendInputLen < r.candExtendInputLen + cfg.cache.pageSize :=
    ceilPagedTokens_lt _
  have hle : ceilPagedTokens cfg r.candExtendInputLen ≤ totalTokens cfg r := by
    unfold totalTokens
    omega
  exact (Int.cast_le.mpr hle).trans h.le

theorem Within.addOneReq (h : Within cfg hf nodes kept held a) (hn : r.lastNode ∈ nodes)
    (hrun : a.addOneReq cfg r align allow = .ok (a', res)) :
    ∃ held', Within cfg hf nodes kept held' a' := by
  obtain ⟨rfl, -⟩ | ⟨-, -, heos⟩ | ⟨c₁, c₃, b, answer, hl⟩ := addOneReq_cases hrun
  · exact ⟨held, h⟩
  · exact ⟨held, h.addOneReqIgnoreEos heos⟩
  obtain ⟨d₁, hinc⟩ := hl.inc
  obtain ⟨d₃, hdec⟩ := hl.dec
  have hlock := incLockRef_relocked h.inv hn hinc
  rw [hl.final]
  obtain ⟨rfl, -⟩ | ⟨n, had, -⟩ := addLocked_cases hl.body
  · have hback := hlock.trans (decLockRef_relocked hlock.inv hdec)
    have hevict := evictableSize_congr h.inv hback.inv hback.skeleton
    refine ⟨held, hback.inv, by rw [hback.allocator]; exact h.pages, h.kept_dvd, h.charged, ?_⟩
    simp only [availableAndEvictable, hback.allocator, hevict]
    exact h.fits
  obtain ⟨d₂, hinc₂⟩ := had.locked
  have hlock₂ := incLockRef_relocked hlock.inv hn hinc₂
  have hlock₃ := hlock₂.trans (decLockRef_relocked hlock₂.inv hdec)
  have hevict := evictableSize_congr hlock.inv hlock₃.inv hlock₃.skeleton
  have hadmits : Admits cfg a { b with cache := c₃ } r n :=
    { had with }
  have hroom : kept + a.needed cfg + ceilPagedTokens cfg r.candExtendInputLen ≤
      { a with cache := c₁ }.availableAndEvictable :=
    room_of_charge h.needed_le_offset (ceil_cand_le had.gate)
  refine ⟨taken cfg.cache r.lastNode held, h.admitReq hadmits (hlock.trans hlock₃) ?_⟩
  calc kept + a.needed cfg + ceilPagedTokens cfg n
      ≤ kept + a.needed cfg + ceilPagedTokens cfg r.candExtendInputLen :=
        Int.add_le_add_left had.ceil_le _
    _ ≤ { a with cache := c₁ }.availableAndEvictable := hroom
    _ = ({ b with cache := c₃ } : PrefillAdder H B).availableAndEvictable := by
        simp only [availableAndEvictable, hlock₃.allocator, hevict]

end Steps

/-! ## A pass -/

/-- The calls of one pass on requests matched against the tree; the fallback of
`add_chunked_req` is not taken. -/
inductive Pass (cfg : AdderConfig) (nodes : Finset NodeId) (a₀ : PrefillAdder H B) :
    PrefillAdder H B → Prop
  | start : Pass cfg nodes a₀ a₀
  | chunked {a a' : PrefillAdder H B} {r : WaitingReq} {x : Option WaitingReq} :
      Pass cfg nodes a₀ a → ¬ a.FallbackTaken → a.addChunkedReq cfg r = .ok (a', x) →
      Pass cfg nodes a₀ a'
  | one {a a' : PrefillAdder H B} {r : WaitingReq} {align : Option Nat} {allow : Bool}
      {res : AddReqResult} :
      Pass cfg nodes a₀ a → r.lastNode ∈ nodes → a.addOneReq cfg r align allow = .ok (a', res) →
      Pass cfg nodes a₀ a'

section Pass

variable {a₀ : PrefillAdder H B}

theorem Pass.within (h₀ : Within cfg hf nodes kept held a₀) (h : Pass cfg nodes a₀ a) :
    ∃ held', Within cfg hf nodes kept held' a := by
  induction h with
  | start => exact ⟨held, h₀⟩
  | chunked _ hfb hrun ih =>
    obtain ⟨held', hw⟩ := ih
    exact ⟨held', hw.addChunkedReq hfb hrun⟩
  | one _ hn hrun ih =>
    obtain ⟨held', hw⟩ := ih
    exact hw.addOneReq hn hrun

variable {cache : RadixCache H B} {running : List RunningReq} {ratio : ℚ} {remInput : Int}
variable {remChunk : Option Int} {mixed : Nat}

theorem within_init (hinv : Inv cfg.cache hf cache nodes held)
    (hpages : cache.allocator.pageSize = cfg.cache.pageSize)
    (hdvd : (cfg.cache.pageSize : Int) ∣ kept)
    (hkept : kept ≤ (init cfg cache running ratio remInput remChunk mixed).remTotalTokenOffset) :
    Within cfg hf nodes kept held (init cfg cache running ratio remInput remChunk mixed) where
  inv := hinv
  pages := hpages
  kept_dvd := hdvd
  charged := by simpa [init, needed] using hkept
  fits hne := absurd rfl hne

/-- The estimate for the running batch is not negative as long as no running request
has produced more tokens than its limit. -/
theorem init_offset_nonneg (hratio : 0 ≤ ratio)
    (hrun : ∀ x ∈ running, x.outputLen ≤ x.maxNewTokens) :
    0 ≤ (init cfg cache running ratio remInput remChunk mixed).remTotalTokenOffset := by
  have hsum : 0 ≤ (running.map (runningOffset cfg ratio)).sum := by
    apply List.sum_nonneg
    intro x hx
    obtain ⟨y, hy, rfl⟩ := mem_map.mp hx
    have hle := hrun y hy
    apply mul_nonneg _ hratio
    exact Int.cast_nonneg (by omega)
  exact add_nonneg (Nat.cast_nonneg _) hsum

/-- The pages `alloc_extend` takes for the admitted requests are free or evictable
once their nodes are locked, if the estimate for the running batch is not negative. -/
theorem admission_within_memory (hinv : Inv cfg.cache hf cache nodes held)
    (hpages : cache.allocator.pageSize = cfg.cache.pageSize)
    (hest : 0 ≤ (init cfg cache running ratio remInput remChunk mixed).remTotalTokenOffset)
    (hpass : Pass cfg nodes (init cfg cache running ratio remInput remChunk mixed) a) :
    a.needed cfg ≤ a.availableAndEvictable := by
  obtain ⟨held', hw⟩ := hpass.within (within_init hinv hpages (dvd_zero _) (by simpa using hest))
  cases hlist : a.canRunList with
  | nil => simpa [needed, hlist] using hw.nonneg
  | cons x rest => simpa using hw.fits (by simp [hlist])

end Pass

def tenFree : RadixCache Unit Unit := .init .small 0 (.new 10 1 false)

def tenPages (running : List RunningReq) : PrefillAdder Unit Unit :=
  init .small tenFree running 1 16384 none 0

theorem admission_within_memory_once : ∃ a r, (r : WaitingReq).fillLen = 5 ∧
    Pass .small {tenFree.tree.rootNode} (tenPages [⟨8, 1, 2, false⟩]) a ∧
    a.canRunList = [⟨r, 5⟩] ∧ a.needed .small ≤ a.availableAndEvictable := by
  let r : WaitingReq := ⟨5, 0, 0, 0, 2, false, by decide⟩
  have hok : okAnd ((tenPages [⟨8, 1, 2, false⟩]).addOneReq .small r none true)
      (fun x => decide (x.1.canRunList = [⟨r, 5⟩])) = true := by decide +kernel
  obtain ⟨⟨a, res⟩, hrun, hlist⟩ := exists_of_okAnd hok
  have hpass : Pass .small {tenFree.tree.rootNode} (tenPages [⟨8, 1, 2, false⟩]) a :=
    .one .start (Finset.mem_singleton.mpr rfl) hrun
  have hinv : Inv Config.small .unit tenFree {tenFree.tree.rootNode} [] := reset_spec _
  have hest : 0 ≤ (tenPages [⟨8, 1, 2, false⟩]).remTotalTokenOffset :=
    init_offset_nonneg (by decide) (by decide)
  exact ⟨a, r, rfl, hpass, of_decide_eq_true hlist, admission_within_memory hinv rfl hest hpass⟩

/-- Four requests that speculative decoding carried three tokens past their limit
turn the estimate negative, and eighteen tokens are admitted into ten. -/
theorem overshoot_over_commits : ∃ a res, (tenPages (.replicate 4 ⟨8, 4, 1, false⟩)).addOneReq
      .small ⟨18, 0, 0, 0, 1, false, by decide⟩ none true = .ok (a, res) ∧
    a.availableAndEvictable = 10 ∧ a.needed .small = 18 := by
  have hok : okAnd ((tenPages (.replicate 4 ⟨8, 4, 1, false⟩)).addOneReq .small
      ⟨18, 0, 0, 0, 1, false, by decide⟩ none true) (fun x =>
        decide (x.1.availableAndEvictable = 10 ∧ x.1.needed .small = 18)) = true := by
    decide +kernel
  obtain ⟨⟨a, res⟩, hrun, hsize⟩ := exists_of_okAnd hok
  exact ⟨a, res, hrun, of_decide_eq_true hsize⟩

end PrefillAdder

end SparkInfer.Sched
