import SparkInfer.Sched.Admission

/-!
# Accepted requests and an idle server

`init_req_max_new_tokens` clips the new tokens of a request so that prompt,
output and one page fit into the pool, and `validate_input_length` rejects longer
prompts.  On an idle server the admission gate asks for the same sum, so what was
accepted is admitted, unless the clip itself went below zero.
-/

namespace SparkInfer.Sched

open Lib Alloc Alloc.Paged Radix List Finset WaitingReq

variable {r : WaitingReq}
variable {n : NodeId}
open PrefillAdder (ceilPagedTokens)

structure ServerLimits where
  contextLen : Nat
  maxTotalNumTokens : Nat
  maxNewTokensLimit : Option Int
  allowAutoTruncate : Bool

namespace ServerLimits

variable (s : ServerLimits)

def maxReqLen : Int :=
  min ((s.contextLen : Int) - 1) ((s.maxTotalNumTokens : Int) - 1)

def maxReqInputLen : Int := s.maxReqLen - 5

/-- What the client asked for, under the server's limit. -/
def requestedNewTokens (requested : Option Nat) : Int :=
  let asked : Int := match requested with
    | some k => k
    | none => 2 ^ 30
  match s.maxNewTokensLimit with
  | some limit => if 0 < limit then min asked limit else asked
  | none => asked

def initReqMaxNewTokens (cfg : AdderConfig) (s : ServerLimits) (inputLen : Nat)
    (requested : Option Nat) : Int :=
  max 0 (min (s.requestedNewTokens requested) (min (s.maxReqLen - inputLen - 1)
    (s.maxTotalNumTokens - ceilPagedTokens cfg inputLen - cfg.cache.pageSize - 1)))

def sliceLen (len : Nat) (stop : Int) : Nat :=
  if 0 ≤ stop then min len stop.toNat else ((len : Int) + stop).toNat

/-- `validate_input_length`: the length of the prompt that is kept. -/
def validateInputLength (inputLen : Nat) : Except String Nat :=
  if s.maxReqInputLen ≤ inputLen then
    if s.allowAutoTruncate then .ok (sliceLen inputLen s.maxReqInputLen)
    else .error (s!"Input length ({inputLen} tokens) exceeds the maximum allowed length (" ++
      toString s.maxReqInputLen ++
      " tokens). Use a shorter input or enable --allow-auto-truncate.")
  else .ok inputLen

end ServerLimits

/-- The request was accepted as a prompt of `inputLen` tokens, and has since produced
part of its output. -/
structure Accepted (cfg : AdderConfig) (s : ServerLimits) (inputLen : Nat)
    (requested : Option Nat) (r : WaitingReq) : Prop where
  valid : s.validateInputLength inputLen = .ok r.originLen
  maxNew : (r.maxNewTokens : Int) = s.initReqMaxNewTokens cfg inputLen requested
  output_le : r.outputLen ≤ r.maxNewTokens

/-- No request runs, no node is locked, and the pool is free or cached. -/
structure Idle {H B : Type} (cfg : AdderConfig) (hf : HashFns H B) (s : ServerLimits)
    (c : RadixCache H B) (nodes : Finset NodeId) : Prop where
  inv : Inv cfg.cache hf c nodes []
  disabled : cfg.cache.disable = true → nodes = {c.tree.rootNode}
  pages : c.allocator.pageSize = cfg.cache.pageSize
  total : (c.allocator.availableSize : Int) + c.tree.evictableSize = s.maxTotalNumTokens

def Matched {H B : Type} (c : RadixCache H B) (nodes : Finset NodeId) (r : WaitingReq) : Prop :=
  ∃ l, (c.tree.trie nodes).Path r.lastNode l ∧ l.length = r.prefixLen

section Accept

variable {cfg : AdderConfig} {s : ServerLimits} {inputLen : Nat} {requested : Option Nat}
theorem ServerLimits.sliceLen_le (len : Nat) (stop : Int) : sliceLen len stop ≤ len := by
  unfold sliceLen
  split <;> omega

variable (h : Accepted cfg s inputLen requested r)
include h

theorem Accepted.origin_le : r.originLen ≤ inputLen := by
  have hv := h.valid
  unfold ServerLimits.validateInputLength at hv
  split at hv
  · split at hv
    · rw [← Except.ok.inj hv]
      exact ServerLimits.sliceLen_le _ _
    · cases hv
  · exact (Except.ok.inj hv).ge

/-- The bound the comment in `init_req_max_new_tokens` asks for, where the clip at zero
leaves it. -/
theorem Accepted.fits (hroom : r.originLen + cfg.cache.pageSize < s.maxTotalNumTokens) :
    r.originLen + r.maxNewTokens + cfg.cache.pageSize < s.maxTotalNumTokens := by
  have hlen := h.origin_le
  have hceil : inputLen ≤ ceilPagedTokens cfg inputLen := PrefillAdder.le_ceilPagedTokens
  have hmax := h.maxNew
  unfold ServerLimits.initReqMaxNewTokens at hmax
  omega

theorem Accepted.totalTokens_lt (hroom : r.originLen + cfg.cache.pageSize < s.maxTotalNumTokens) :
    PrefillAdder.totalTokens cfg r < (s.maxTotalNumTokens : Int) - r.prefixLen := by
  have hfits := h.fits hroom
  have hout := h.output_le
  unfold PrefillAdder.totalTokens candExtendInputLen fillLen
  omega

end Accept

section Lock

variable {H B : Type} {cfg : Config} {hf : HashFns H B} {c c₁ : RadixCache H B}
variable {nodes : Finset NodeId} {held : List NodeId} {l : List (Atom × Int)}

theorem sum_spine (h : Shape cfg.pageSize c.tree.toSkeleton nodes) {ns : List NodeId}
    (hns : (c.tree.trie nodes).Spine n ns) :
    ∑ x ∈ nodes.erase c.tree.rootNode, (if x ∈ ns then ((c.tree.key x).len : Int) else 0) =
      ((c.tree.trie nodes).word ns).length := by
  have hsub : ns.toFinset ⊆ nodes.erase c.tree.rootNode := by
    intro x hx
    have hmem := hns.mem (mem_toFinset.mp hx)
    exact mem_erase.mpr ⟨hmem.2, hmem.1⟩
  have hword : ((c.tree.trie nodes).word ns).length = (ns.map fun x => (c.tree.key x).len).sum := by
    rw [Trie.word, length_flatMap]
    congr 1
    apply map_congr_left
    intro x hx
    exact h.length_label (hns.mem hx).1
  rw [hword, ← sum_toFinset _ hns.nodup, Nat.cast_sum, ← sum_subset hsub]
  · apply sum_congr rfl
    intro x hx
    rw [if_pos (mem_toFinset.mp hx)]
  · intro x _ hx
    exact if_neg fun hmem => hx (mem_toFinset.mpr hmem)

variable (h : Inv cfg hf c nodes held)
include h

theorem evictableSize_le_of_lock
    (hl : (c.tree.trie nodes).Path n l) (hre : Relocked cfg hf nodes c c₁ (taken cfg n held)) :
    c.tree.evictableSize ≤ c₁.tree.evictableSize + l.length := by
  unfold taken at hre
  split at hre
  · rw [evictableSize_congr h hre.inv hre.skeleton]
    omega
  obtain ⟨ns, hns, rfl⟩ := hl
  have hroot := congrArg Skeleton.rootNode hre.skeleton
  have hkey : c₁.tree.key = c.tree.key := congrArg Skeleton.key hre.skeleton
  rw [h.sized.evictable, hre.inv.sized.evictable, ← sum_spine h.shape hns]
  unfold sizeWhere
  rw [hroot, hkey, ← sum_add_distrib]
  apply Finset.sum_le_sum
  intro x hx
  have hmem := mem_of_mem_erase hx
  have hne := ne_of_mem_erase hx
  have hcover : c₁.tree.lockRef x = c.tree.lockRef x + if x ∈ ns then 1 else 0 := by
    rw [h.locked.cover x hmem hne, hre.inv.locked.cover x hmem (hroot ▸ hne), hre.skeleton,
      Forest.cover_cons]
    push_cast
    simp only [hns.covers_iff]
  rw [hcover]
  by_cases hx' : x ∈ ns
  · simp only [if_pos hx']
    split <;> split <;> omega
  · simp only [if_neg hx', add_zero, le_refl]

variable (hm : Matched c nodes r)
include hm

theorem Matched.mem : r.lastNode ∈ nodes := by
  obtain ⟨l, hl, -⟩ := hm
  exact h.shape.wf.mem_of_path hl

theorem Matched.dvd : (cfg.pageSize : Int) ∣ r.prefixLen := by
  obtain ⟨l, hl, hlen⟩ := hm
  rw [← hlen]
  exact Int.natCast_dvd_natCast.mpr (h.shape.wf.dvd_path hl)

omit h

theorem Matched.prefix_zero (hnodes : nodes = {c.tree.rootNode})
    (h : Inv cfg hf c nodes held) : r.prefixLen = 0 := by
  have hroot : r.lastNode = c.tree.rootNode := by
    have hmem := hm.mem h
    rw [hnodes] at hmem
    exact Finset.mem_singleton.mp hmem
  obtain ⟨l, hl, hlen⟩ := hm
  rw [hroot] at hl
  rw [← hlen, hl.unique (Trie.path_root (c.tree.trie nodes))]
  rfl

end Lock

/-! ## The pass on an idle server -/

namespace PrefillAdder

variable {H B : Type} {cfg : AdderConfig} {hf : HashFns H B} {a a' : PrefillAdder H B}
variable {nodes : Finset NodeId} {held : List NodeId} {align : Option Nat}
variable {allow : Bool} {c : RadixCache H B}

theorem incLockRef_ok (h : Inv cfg.cache hf c nodes held) (hn : n ∈ nodes) :
    ∃ c' d, c.incLockRef cfg.cache n = .ok (c', d) := by
  cases hen : cfg.cache.disable with
  | true => exact ⟨c, 0, by simp [RadixCache.incLockRef, hen]⟩
  | false =>
    obtain ⟨t', delta, hok, -⟩ := incLockRef_spec h hen hn
    exact ⟨_, _, hok⟩

theorem decLockRef_ok (h : Inv cfg.cache hf c nodes (taken cfg.cache n held)) :
    ∃ c' d, c.decLockRef cfg.cache n = .ok (c', d) := by
  cases hen : cfg.cache.disable with
  | true => exact ⟨c, 0, by simp [RadixCache.decLockRef, hen]⟩
  | false =>
    rw [taken, if_neg (by simp [hen])] at h
    obtain ⟨t', delta, hok, -⟩ := decLockRef_spec h hen mem_cons_self
    exact ⟨_, _, hok⟩

theorem addLocked_ok {total : Int} (h : Inv cfg.cache hf a.cache nodes held)
    (hn : r.lastNode ∈ nodes) :
    ∃ b answer, a.addLocked cfg r align allow total = .ok (b, answer) := by
  obtain ⟨c', d, hinc⟩ := incLockRef_ok h hn
  simp only [addLocked, admitReq, hinc]
  (repeat' split) <;> exact ⟨_, _, rfl⟩

theorem addOneReqIgnoreEos_ok (hzero : r.prefixLen = 0) :
    ∃ b res, a.addOneReqIgnoreEos cfg r allow = .ok (b, res) := by
  simp only [addOneReqIgnoreEos, ne_eq]
  (repeat' split) <;> exact ⟨_, _, rfl⟩

theorem addOneReq_ok (h : Inv cfg.cache hf a.cache nodes held) (hn : r.lastNode ∈ nodes)
    (hzero : cfg.cache.disable = true → r.prefixLen = 0) :
    ∃ b res, a.addOneReq cfg r align allow = .ok (b, res) := by
  simp only [addOneReq]
  split
  · exact ⟨_, _, rfl⟩
  split
  · exact ⟨_, _, rfl⟩
  split
  · rename_i heos
    exact addOneReqIgnoreEos_ok (hzero heos.2)
  split
  · exact ⟨_, _, rfl⟩
  split
  · exact ⟨_, _, rfl⟩
  obtain ⟨c₁, d₁, hinc⟩ := incLockRef_ok h hn
  have hlock := incLockRef_relocked h hn hinc
  obtain ⟨b, answer, hbody⟩ : ∃ b answer, { a with cache := c₁ }.addLocked cfg
      r align allow (totalTokens cfg r) = .ok (b, answer) := addLocked_ok hlock.inv hn
  have hdec : ∃ c₃ d₃, b.cache.decLockRef cfg.cache r.lastNode = .ok (c₃, d₃) := by
    obtain ⟨rfl, -⟩ | ⟨n, had, -⟩ := addLocked_cases hbody
    · exact decLockRef_ok hlock.inv
    · obtain ⟨d₂, hinc₂⟩ := had.locked
      exact decLockRef_ok (incLockRef_relocked hlock.inv hn hinc₂).inv
  obtain ⟨c₃, d₃, hdec⟩ := hdec
  rw [totalTokens] at hbody
  exact ⟨_, _, by simp only [hinc, hbody, hdec, ok_bind]; rfl⟩

theorem budgetState_ne_noToken (htotal : 0 < a.remTotalTokens) (hcur : 0 < a.curRemTokens) :
    a.budgetState ≠ .noToken := by
  unfold budgetState
  rw [if_neg (by simp [not_le.mpr htotal, not_le.mpr hcur])]
  split
  · simp
  split
  · split <;> simp
  · simp

section Idle

variable {s : ServerLimits} {c : RadixCache H B} {inputLen : Nat} {requested : Option Nat}

theorem prefix_add_ceil_le (hdvd : (cfg.cache.pageSize : Int) ∣ r.prefixLen) :
    r.prefixLen + ceilPagedTokens cfg r.candExtendInputLen ≤ ceilPagedTokens cfg r.fillLen := by
  have hfill : r.fillLen ≤ ceilPagedTokens cfg r.fillLen := le_ceilPagedTokens
  have hle : ceilPagedTokens cfg r.candExtendInputLen ≤
      ceilPagedTokens cfg r.fillLen - r.prefixLen := by
    apply ceilPagedTokens_le_of_dvd
    · unfold candExtendInputLen
      omega
    · exact dvd_sub (Dvd.intro_left _ rfl) hdvd
  omega

theorem Admits.budget_left {n : Int} (had : Admits cfg a a' r n)
    (hoff : a.remTotalTokenOffset = 0) (hcur : a.curRemTokenOffset = 0)
    (hdvd : (cfg.cache.pageSize : Int) ∣ r.prefixLen)
    (hleft : (s.maxTotalNumTokens : Int) ≤ a'.availableAndEvictable + r.prefixLen)
    (hroom : ceilPagedTokens cfg r.fillLen + min r.maxNewTokens cfg.clipMaxNewTokens +
      cfg.cache.pageSize < s.maxTotalNumTokens) : a'.budgetState ≠ .noToken := by
  have hceil := prefix_add_ceil_le hdvd
  have hcharge := had.charge_le
  have hcur' := had.cur_le
  apply budgetState_ne_noToken
  · have hlt : ((ceilPagedTokens cfg r.candExtendInputLen + min r.maxNewTokens cfg.clipMaxNewTokens
        + cfg.cache.pageSize : Int) : ℚ) < a'.availableAndEvictable :=
      Int.cast_lt.mpr (by omega)
    unfold remTotalTokens
    linarith
  · unfold curRemTokens
    omega

variable {ratio : ℚ} {remInput : Int} {remChunk : Option Int}

theorem remTotalTokens_idle : (init cfg c [] ratio remInput remChunk 0).remTotalTokens =
    ((c.allocator.availableSize + c.tree.evictableSize : Int) : ℚ) := by
  simp [remTotalTokens, init, availableAndEvictable]

theorem curRemTokens_idle : (init cfg c [] ratio remInput remChunk 0).curRemTokens =
    c.allocator.availableSize + c.tree.evictableSize := by
  simp [curRemTokens, init, availableAndEvictable]

theorem statesWith_idle : (init cfg c [] ratio remInput remChunk 0).statesWith r =
    (waitingState ratio r).toList := by
  simp only [statesWith, init]
  cases waitingState ratio r <;> simp

theorem not_shortOfTokens (hacc : Accepted cfg s inputLen requested r)
    (hroom : r.originLen + cfg.cache.pageSize < s.maxTotalNumTokens)
    (htotal : (c.allocator.availableSize : Int) + c.tree.evictableSize = s.maxTotalNumTokens)
    (heos : r.ignoreEos = true) :
    ¬ (init cfg c [] ratio remInput remChunk 0).ShortOfTokens cfg r := by
  have hfits := hacc.fits hroom
  have hceil : ceilPagedTokens cfg r.candExtendInputLen < r.candExtendInputLen + cfg.cache.pageSize :=
    ceilPagedTokens_lt _
  have hcand : r.candExtendInputLen ≤ r.originLen + r.outputLen := by
    unfold candExtendInputLen fillLen
    omega
  have hout := hacc.output_le
  unfold ShortOfTokens
  rw [remTotalTokens_idle, curRemTokens_idle, statesWith_idle, htotal, min_self, not_or]
  constructor
  · rw [not_lt, Int.cast_le]
    omega
  rw [waitingState, reqState]
  simp only [heos, if_true]
  split
  · simp [runsShort]
  have hleft : 1 < ((s.maxTotalNumTokens - ceilPagedTokens cfg r.candExtendInputLen -
      (r.maxNewTokens - r.outputLen) : Int) : ℚ) := by
    rw [← Int.cast_one, Int.cast_lt]
    omega
  push_cast at hleft
  simp only [Option.toList_some, runsShort, length_nil, zero_add, Nat.cast_one, Int.cast_sub, Int.cast_natCast, Bool.if_false_right, Bool.and_true,
    decide_eq_true_eq]
  linarith

end Idle

/-- Ten pages of 64 tokens, all free. -/
def pagedConfig : AdderConfig :=
  { AdderConfig.small with cache := { Config.small with pageSize := 64, pageSize_pos := by decide } }

def tenLargePages : RadixCache Unit Unit := .init pagedConfig.cache 0 (.new 640 64 false)

def smallServer : ServerLimits := ⟨4096, 640, none, false⟩

def freshReq (originLen outputLen maxNewTokens : Nat) : WaitingReq :=
  ⟨originLen, outputLen, 0, tenLargePages.tree.rootNode, maxNewTokens, false, Nat.zero_le _⟩

/-- The answer may be `NO_TOKEN` for the sake of the next request: the charge of a
retracted request counts its whole new-token limit again. -/
example : okAnd ((init pagedConfig tenLargePages [] 1 16384 none 0).addOneReq pagedConfig
    (freshReq 64 300 500) none true)
    (fun x => decide (x.2 = .noToken ∧ x.1.canRunList.length = 1)) = true := by decide +kernel

end PrefillAdder

end SparkInfer.Sched
