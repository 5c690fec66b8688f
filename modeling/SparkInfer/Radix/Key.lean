import SparkInfer.Lib.CommonPrefix
import SparkInfer.Lib.PyVal

/-!
# Radix keys

`RadixKey` of `radix_cache.py`: a token sequence with a namespace, read either
token by token or, for EAGLE, as overlapping pairs.  Every other module talks
about a key through its list of logical units; the lemmas at the end of each
section translate the slicing, matching and hashing methods to that list.
-/

namespace SparkInfer.Radix

open Lib Lib.CommonPrefix List

variable {offset j : Nat} {us : List PyVal} {a b : RadixKey} {x : PyVal}

variable {hi lo pageSize : Nat} {α : Type}

/-- The pair `(extra_key, cache_salt)` that separates tenants. -/
abbrev Namespace := Option String × Option String

structure RadixKey where
  tokenIds : List Int
  extraKey : Option String
  cacheSalt : Option String
  isBigram : Bool
  limit : Option Nat
deriving DecidableEq, Repr

namespace RadixKey

/-- The constructor: an empty `cache_salt` is stored as `None`. -/
def new (tokenIds : List Int) (extraKey : Option String) (isBigram : Bool)
    (limit : Option Nat) (cacheSalt : Option String) : RadixKey where
  tokenIds := tokenIds
  extraKey := extraKey
  cacheSalt := if cacheSalt = some "" then none else cacheSalt
  isBigram := isBigram
  limit := limit

def empty : RadixKey := new [] none false none none

variable (k : RadixKey) (ts : List Int)

def rawLen : Nat :=
  match k.limit with
  | some l => if l < k.tokenIds.length then l else k.tokenIds.length
  | none => k.tokenIds.length

/-- `raw_token_ids`: the tokens below the limit. -/
def rawTokenIds : List Int := k.tokenIds.take k.rawLen

def len : Nat := if k.isBigram then k.rawLen - 1 else k.rawLen

def ns : Namespace := (k.extraKey, k.cacheSalt)

def pair (a b : Int) : PyVal := .tuple [.int a, .int b]

def bigrams : List Int → List PyVal
  | a :: b :: ts => pair a b :: bigrams (b :: ts)
  | _ => []

/-- `__iter__`: the logical units of the key. -/
def units : List PyVal :=
  if k.isBigram then bigrams k.rawTokenIds else k.rawTokenIds.map .int

/-- `__getitem__` on the slice `[lo:hi]`. -/
def getSlice (lo hi : Nat) : RadixKey :=
  let start := min lo k.len
  let stop := min hi k.len
  { tokenIds :=
      if k.isBigram then
        -- pairs [start, stop) span the tokens [start, stop + 1)
        if start < stop then slice k.tokenIds start (stop + 1) else []
      else slice k.tokenIds start stop
    extraKey := k.extraKey
    cacheSalt := k.cacheSalt
    isBigram := k.isBigram
    limit := none }

def pageAligned (pageSize : Nat) : RadixKey :=
  if pageSize = 1 then k else k.getSlice 0 (k.len / pageSize * pageSize)

/-- `maybe_to_bigram_view`: the key and its value under EAGLE. -/
def maybeToBigramView (isEagle : Bool) (value : Option (List Int)) : RadixKey × Option (List Int) :=
  if isEagle && !k.isBigram then
    let k' := { k with isBigram := true }
    (k', value.map (·.take k'.len))
  else (k, value)

def mismatch (field left right : String) : PyError :=
  .valueError
    s!"RadixKey operations require matching {field}, but got self.{field}={left} != other.{field}={right}"

def checkCompatible (a b : RadixKey) : Except PyError Unit :=
  if a.extraKey ≠ b.extraKey then
    .error (mismatch "extra_key" (PyVal.repr a.extraKey) (PyVal.repr b.extraKey))
  else if a.cacheSalt ≠ b.cacheSalt then
    .error (mismatch "cache_salt" (PyVal.repr a.cacheSalt) (PyVal.repr b.cacheSalt))
  else .ok ()

/-- `match_at`: units shared with `other` from `offset` on, rounded down to
whole pages. -/
def matchAt (self other : RadixKey) (offset pageSize : Nat) : Except PyError Nat := do
  checkCompatible self other
  if self.isBigram ≠ other.isBigram then
    throw (.valueError "RadixKey operations require matching bigram modes")
  if other.len < offset then
    throw (.indexError s!"RadixKey offset out of range: {offset}")
  let n := min self.rawLen (other.rawLen - offset)
  let matchedTokens := gallop self.tokenIds (other.tokenIds.drop offset) n (n + 1) 0 1
  if self.isBigram then
    let matched := min (min (matchedTokens - 1) self.len) (other.len - offset)
    return if 1 < pageSize then matched / pageSize * pageSize else matched
  let matchedTokens := min (min matchedTokens self.len) (other.len - offset)
  return if pageSize = 1 then matchedTokens else matchedTokens / pageSize * pageSize

def matchKey (self other : RadixKey) (pageSize : Nat) : Except PyError Nat :=
  self.matchAt other 0 pageSize

def childKeyAt (offset pageSize : Nat) : Except PyError PyVal :=
  let n := k.len
  if n < offset + pageSize then
    .error (.indexError
      s!"RadixKey child range out of bounds: offset={offset}, page_size={pageSize}, len={n}")
  else
    let t := k.tokenIds
    let plain : PyVal :=
      if k.isBigram then
        if pageSize = 1 then pair (t.getD offset 0) (t.getD (offset + 1) 0)
        else .tuple ((range' offset pageSize).map fun j =>
          pair (t.getD j 0) (t.getD (j + 1) 0))
      else if pageSize = 1 then .int (t.getD offset 0)
      else .tuple ((slice t offset (offset + pageSize)).map .int)
    match k.extraKey, k.cacheSalt with
    | extraKey, some salt => .ok (.tuple [.tuple [.ofOption extraKey, .str salt], plain])
    | none, none => .ok plain
    | some extraKey, none => .ok (.tuple [.str extraKey, plain])

def childKey (pageSize : Nat) : Except PyError PyVal :=
  k.childKeyAt 0 pageSize

/-! ## Pairs of tokens -/

@[simp] theorem pair_inj {a b c d : Int} : pair a b = pair c d ↔ a = c ∧ b = d := by
  simp [pair]

@[simp] theorem length_bigrams : (bigrams ts).length = ts.length - 1 := by
  induction ts with
  | nil => rfl
  | cons a ts ih =>
    cases ts with
    | nil => rfl
    | cons b ts =>
      simp only [bigrams, length_cons] at ih ⊢
      omega

theorem bigrams_drop (n : Nat) : bigrams (ts.drop n) = (bigrams ts).drop n := by
  induction n generalizing ts with
  | zero => rfl
  | succ n ih =>
    match ts with
    | [] => rfl
    | [a] => simp [bigrams]
    | a :: b :: ts => simpa [bigrams] using ih (b :: ts)

theorem bigrams_take (n : Nat) : bigrams (ts.take (n + 1)) = (bigrams ts).take n := by
  induction n generalizing ts with
  | zero => cases ts <;> simp [bigrams]
  | succ n ih =>
    match ts with
    | [] => rfl
    | [a] => simp
    | a :: b :: ts => simpa [bigrams] using ih (b :: ts)

theorem bigrams_getD (d : PyVal) (hj : j + 1 < ts.length) :
    (bigrams ts).getD j d = pair (ts.getD j 0) (ts.getD (j + 1) 0) := by
  induction j generalizing ts with
  | zero =>
    match ts, hj with
    | a :: b :: ts, _ => simp [bigrams]
  | succ j ih =>
    match ts, hj with
    | a :: b :: ts, hj =>
      have h := ih (b :: ts) (by simpa using hj)
      simpa [bigrams] using h

theorem bigrams_take_eq_iff (xs ys : List Int) (c : Nat) (hc : 0 < c)
    (hx : c < xs.length) (hy : c < ys.length) :
    (bigrams xs).take c = (bigrams ys).take c ↔ xs.take (c + 1) = ys.take (c + 1) := by
  induction c generalizing xs ys with
  | zero => omega
  | succ c ih =>
    match xs, ys, hx, hy with
    | a :: b :: xs, a' :: b' :: ys, hx, hy =>
      cases c with
      | zero => simp [bigrams]
      | succ c =>
        have h := ih (b :: xs) (b' :: ys) (by omega) (by simpa using hx) (by simpa using hy)
        simp only [bigrams, take_succ_cons, cons.injEq, pair_inj] at h ⊢
        tauto

/-! ## A key through its units -/

theorem rawLen_le : k.rawLen ≤ k.tokenIds.length := by
  unfold rawLen
  split
  · split_ifs <;> omega
  · exact le_rfl

@[simp] theorem length_rawTokenIds : k.rawTokenIds.length = k.rawLen := by
  rw [rawTokenIds, length_take, min_eq_left k.rawLen_le]

@[simp] theorem length_units : k.units.length = k.len := by
  unfold units len
  split_ifs <;> simp

theorem rawLen_getSlice : (k.getSlice lo hi).rawLen = (k.getSlice lo hi).tokenIds.length := by
  simp [rawLen, getSlice]

@[simp] theorem ns_getSlice : (k.getSlice lo hi).ns = k.ns := rfl

theorem units_getSlice (hlo : lo ≤ hi) (hhi : hi ≤ k.len) :
    (k.getSlice lo hi).units = slice k.units lo hi := by
  have hraw : (k.getSlice lo hi).rawTokenIds = (k.getSlice lo hi).tokenIds := by
    rw [rawTokenIds, rawLen_getSlice, take_length]
  have hlo' : min lo k.len = lo := min_eq_left (hlo.trans hhi)
  have hhi' : min hi k.len = hi := min_eq_left hhi
  unfold units
  rw [hraw]
  cases hb : k.isBigram with
  | false =>
    have hlen : hi ≤ k.rawLen := by simpa [len, hb] using hhi
    simp only [getSlice, hb, hlo', hhi', Bool.false_eq_true, if_false]
    rw [slice, slice, map_drop, map_take, rawTokenIds, map_take, take_take, Nat.min_eq_left hlen]
  | true =>
    have hlen : hi ≤ k.rawLen - 1 := by simpa [len, hb] using hhi
    simp only [getSlice, hb, hlo', hhi', if_true]
    by_cases hlt : lo < hi
    · rw [if_pos hlt, slice, bigrams_drop, bigrams_take, rawTokenIds, slice]
      obtain ⟨r, hr⟩ : ∃ r, k.rawLen = r + 1 := ⟨k.rawLen - 1, by omega⟩
      rw [hr, bigrams_take, take_take, min_eq_left (by omega)]
    · have hempty : lo = hi := by omega
      rw [if_neg hlt, hempty, slice]
      simp [bigrams]

theorem len_getSlice (hlo : lo ≤ hi) (hhi : hi ≤ k.len) : (k.getSlice lo hi).len = hi - lo := by
  have h := congrArg length (units_getSlice k hlo hhi)
  rw [length_units] at h
  rw [h, slice, length_drop, length_take, length_units, min_eq_left hhi]

theorem units_drop (hlo : lo ≤ k.len) : (k.getSlice lo k.len).units = k.units.drop lo := by
  rw [units_getSlice k hlo le_rfl, slice, take_of_length_le (by simp)]

theorem units_take (hhi : hi ≤ k.len) : (k.getSlice 0 hi).units = k.units.take hi := by
  rw [units_getSlice k (Nat.zero_le _) hhi, slice, drop_zero]

theorem units_pageAligned :
    (k.pageAligned pageSize).units = k.units.take (floorTo pageSize k.len) := by
  unfold pageAligned
  split_ifs with h
  · rw [h, floorTo_one, ← length_units, take_length]
  · exact units_take k (floorTo_le _ _)

theorem len_pageAligned : (k.pageAligned pageSize).len = floorTo pageSize k.len := by
  rw [← length_units, units_pageAligned, length_take, length_units, min_eq_left (floorTo_le _ _)]

@[simp] theorem ns_pageAligned : (k.pageAligned pageSize).ns = k.ns := by
  unfold pageAligned
  split_ifs <;> rfl

@[simp] theorem isBigram_pageAligned : (k.pageAligned pageSize).isBigram = k.isBigram := by
  unfold pageAligned
  split_ifs <;> rfl

/-! ## Matching -/

theorem commonLen_map_int (xs ys : List Int) :
    commonLen (xs.map PyVal.int) (ys.map PyVal.int) = commonLen xs ys := by
  induction xs generalizing ys with
  | nil => cases ys <;> rfl
  | cons x xs ih =>
    cases ys with
    | nil => rfl
    | cons y ys => simp [commonLen, ih]

theorem commonLen_bigrams (xs ys : List Int) :
    commonLen (bigrams xs) (bigrams ys) = commonLen xs ys - 1 := by
  symm
  apply eq_commonLen_of_iff
  intro d
  rcases eq_zero_or_pos d with hd | hd
  · simp [hd]
  have hstep : d ≤ commonLen xs ys - 1 ↔ d + 1 ≤ commonLen xs ys := by omega
  rw [hstep, le_commonLen_iff, length_bigrams, length_bigrams]
  constructor
  · rintro ⟨hx, hy, heq⟩
    exact ⟨by omega, by omega, (bigrams_take_eq_iff xs ys d hd (by omega) (by omega)).mpr heq⟩
  · rintro ⟨hx, hy, heq⟩
    exact ⟨by omega, by omega, (bigrams_take_eq_iff xs ys d hd (by omega) (by omega)).mp heq⟩

theorem drop_rawTokenIds :
    k.rawTokenIds.drop offset = (k.tokenIds.drop offset).take (k.rawLen - offset) := by
  rw [rawTokenIds, drop_take]

theorem gallop_tokens :
    gallop a.tokenIds (b.tokenIds.drop offset) (min a.rawLen (b.rawLen - offset))
        (min a.rawLen (b.rawLen - offset) + 1) 0 1 =
      commonLen a.rawTokenIds (b.rawTokenIds.drop offset) := by
  apply gallop_eq
  · intro d
    rw [le_commonLen_iff, length_drop, length_rawTokenIds, length_rawTokenIds,
      drop_rawTokenIds, rawTokenIds, take_take, take_take, Nat.le_min, and_assoc]
    constructor
    · rintro ⟨ha, hb, heq⟩
      rw [min_eq_left ha, min_eq_left hb] at heq
      exact ⟨ha, hb, heq⟩
    · rintro ⟨ha, hb, heq⟩
      rw [min_eq_left ha, min_eq_left hb]
      exact ⟨ha, hb, heq⟩
  · omega
  · omega
  · omega

theorem commonLen_units (a b : RadixKey) (offset : Nat) (hmode : a.isBigram = b.isBigram) :
    commonLen a.units (b.units.drop offset) =
      if a.isBigram then commonLen a.rawTokenIds (b.rawTokenIds.drop offset) - 1
      else commonLen a.rawTokenIds (b.rawTokenIds.drop offset) := by
  unfold units
  rw [← hmode]
  split_ifs
  · rw [← bigrams_drop, commonLen_bigrams]
  · rw [← map_drop, commonLen_map_int]

/-- In one namespace and mode `match_at` is the page floor of the common length
of the unit lists. -/
theorem matchAt_eq (a b : RadixKey) (hps : 0 < pageSize) (hns : a.ns = b.ns)
    (hmode : a.isBigram = b.isBigram) (hoff : offset ≤ b.len) : a.matchAt b offset pageSize =
      .ok (floorTo pageSize (commonLen a.units (b.units.drop offset))) := by
  have hextra : a.extraKey = b.extraKey := congrArg Prod.fst hns
  have hsalt : a.cacheSalt = b.cacheSalt := congrArg Prod.snd hns
  have hleft := commonLen_le_left a.units (b.units.drop offset)
  have hright := commonLen_le_right a.units (b.units.drop offset)
  rw [length_units] at hleft
  rw [length_drop, length_units] at hright
  have hunits := commonLen_units a b offset hmode
  have hcompat : checkCompatible a b = .ok () := by simp [checkCompatible, hextra, hsalt]
  have hoff' : ¬ b.len < offset := by omega
  unfold matchAt
  simp only [hcompat, hmode, hoff', gallop_tokens]
  cases hb : b.isBigram with
  | true =>
    rw [hmode, hb, if_pos rfl] at hunits
    rw [← hunits, min_eq_left hleft, min_eq_left hright]
    rcases lt_or_ge 1 pageSize with h1 | h1
    · simp [h1, floorTo]
    · have hone : pageSize = 1 := by omega
      simp [hone]
  | false =>
    rw [hmode, hb, if_neg (by simp)] at hunits
    rw [← hunits, min_eq_left hleft, min_eq_left hright]
    by_cases h1 : pageSize = 1
    · simp [h1]
    · simp [h1, floorTo]

/-- The answer of `match_at` is the length of the longest common prefix of the units of `a`
and the units of `b` from the offset on, rounded down to whole pages. -/
theorem matchAt_longest_common (a b : RadixKey) (offset pageSize : Nat) (hps : 0 < pageSize)
    (hns : a.ns = b.ns) (hmode : a.isBigram = b.isBigram) (hoff : offset ≤ b.len) :
    ∃ c, (∀ d, d ≤ c ↔ d ≤ a.units.length ∧ d ≤ (b.units.drop offset).length ∧
        a.units.take d = (b.units.drop offset).take d) ∧
      a.matchAt b offset pageSize = .ok (c / pageSize * pageSize) :=
  ⟨commonLen a.units (b.units.drop offset), fun d => le_commonLen_iff d _ _,
    matchAt_eq a b hps hns hmode hoff⟩

/-- Pairs under a limit, from the second pair of the other key on. -/
theorem matchAt_longest_common_bigram : ∃ c, (∀ d, d ≤ c ↔ d ≤ 3 ∧ d ≤ 3 ∧
        (new [1, 2, 3, 4, 5] none true (some 4) none).units.take d =
          ((new [9, 1, 2, 3, 7] none true none none).units.drop 1).take d) ∧
      (new [1, 2, 3, 4, 5] none true (some 4) none).matchAt (new [9, 1, 2, 3, 7] none true none none) 1 2 =
        .ok (c / 2 * 2) :=
  matchAt_longest_common (new [1, 2, 3, 4, 5] none true (some 4) none)
    (new [9, 1, 2, 3, 7] none true none none) 1 2 (by decide) rfl rfl (by decide)

theorem matchKey_eq (hps : 0 < pageSize) (hns : a.ns = b.ns) (hmode : a.isBigram = b.isBigram) :
    a.matchKey b pageSize = .ok (floorTo pageSize (commonLen a.units b.units)) := by
  simpa [matchKey] using matchAt_eq a b hps hns hmode (Nat.zero_le _)

/-! ## Child keys -/

/-- The dictionary key of one page of units, before the namespace tag. -/
def pageKey (pageSize : Nat) (us : List PyVal) : PyVal :=
  if pageSize = 1 then us.headD .none else .tuple us

def tag : Namespace → PyVal → PyVal
  | (extraKey, some salt), plain => .tuple [.tuple [.ofOption extraKey, .str salt], plain]
  | (none, none), plain => plain
  | (some extraKey, none), plain => .tuple [.str extraKey, plain]

theorem getD_eq_getD_slice (xs : List α) (d : α)
    (h : lo + j < hi) : (slice xs lo hi).getD j d = xs.getD (lo + j) d := by
  simp only [slice, getD_eq_getElem?_getD, getElem?_drop]
  rw [getElem?_take_of_lt h]

theorem headD_eq_getD (xs : List α) (d : α) : xs.headD d = xs.getD 0 d := by
  cases xs <;> rfl

theorem units_getD (hj : j < k.len) : k.units.getD j .none =
      if k.isBigram then pair (k.tokenIds.getD j 0) (k.tokenIds.getD (j + 1) 0)
      else .int (k.tokenIds.getD j 0) := by
  have hget : ∀ i < k.rawLen, k.rawTokenIds.getD i 0 = k.tokenIds.getD i 0 := by
    intro i hi
    simp only [rawTokenIds, getD_eq_getElem?_getD, getElem?_take_of_lt hi]
  unfold units
  cases hb : k.isBigram with
  | true =>
    have hj' : j + 1 < k.rawLen := by
      simp only [len, hb, if_true] at hj
      omega
    rw [if_pos rfl, if_pos rfl, bigrams_getD _ _ (by simpa using hj'), hget j (by omega),
      hget (j + 1) hj']
  | false =>
    have hj' : j < k.rawLen := by simpa [len, hb] using hj
    rw [if_neg (by simp), ← hget j hj']
    simp [hj']

theorem slice_eq_map_range' (xs : List α) (lo n : Nat) (d : α) (h : lo + n ≤ xs.length) :
    slice xs lo (lo + n) = (range' lo n).map fun j => xs.getD j d := by
  apply ext_getElem
  · simp [slice]
    omega
  · intro i h1 h2
    have hi : i < n := by simpa using h2
    simp [slice, show lo + i < xs.length by omega]

theorem childKeyAt_eq (hlen : offset + pageSize ≤ k.len) : k.childKeyAt offset pageSize =
      .ok (tag k.ns (pageKey pageSize (slice k.units offset (offset + pageSize)))) := by
  have hlt : ¬ k.len < offset + pageSize := by omega
  have hraw : k.len ≤ k.rawLen := by
    unfold len
    split_ifs <;> omega
  have hplain : (if k.isBigram then
        if pageSize = 1 then
          pair (k.tokenIds.getD offset 0) (k.tokenIds.getD (offset + 1) 0)
        else .tuple ((range' offset pageSize).map fun j =>
          pair (k.tokenIds.getD j 0) (k.tokenIds.getD (j + 1) 0))
      else if pageSize = 1 then .int (k.tokenIds.getD offset 0)
      else .tuple ((slice k.tokenIds offset (offset + pageSize)).map .int)) =
      pageKey pageSize (slice k.units offset (offset + pageSize)) := by
    unfold pageKey
    by_cases h1 : pageSize = 1
    · rw [if_pos h1, if_pos h1, if_pos h1, headD_eq_getD,
        getD_eq_getD_slice _ _ (by omega), units_getD k (by omega)]
      rfl
    rw [if_neg h1, slice_eq_map_range' k.units offset pageSize .none (by simpa using hlen)]
    have hunit : ∀ j ∈ range' offset pageSize, k.units.getD j .none =
        if k.isBigram then pair (k.tokenIds.getD j 0) (k.tokenIds.getD (j + 1) 0)
        else .int (k.tokenIds.getD j 0) := by
      intro j hj
      rw [mem_range'_1] at hj
      exact units_getD k (by omega)
    rw [map_congr_left hunit]
    split_ifs
    · rfl
    · rw [slice_eq_map_range' k.tokenIds offset pageSize 0
        (hlen.trans (hraw.trans k.rawLen_le)), map_map]
      rfl
  unfold childKeyAt
  rw [if_neg hlt]
  simp only [hplain]
  rcases hns : k.ns with ⟨extraKey, salt⟩
  have hextra : k.extraKey = extraKey := congrArg Prod.fst hns
  have hsalt : k.cacheSalt = salt := congrArg Prod.snd hns
  rw [hextra, hsalt]
  cases salt <;> cases extraKey <;> rfl

theorem childKey_eq (hlen : pageSize ≤ k.len) :
    k.childKey pageSize = .ok (tag k.ns (pageKey pageSize (k.units.take pageSize))) := by
  have h := childKeyAt_eq k (show 0 + pageSize ≤ k.len by omega)
  simpa [childKey, slice] using h

/-! ## Namespaces never meet -/

/-- The units of a key, each with the key's namespace: the alphabet of the tree. -/
def tagged : List (Namespace × PyVal) := k.units.map fun u => (k.ns, u)

@[simp] theorem length_tagged : k.tagged.length = k.len := by
  simp [tagged]

theorem tagged_getSlice (hlo : lo ≤ hi) (hhi : hi ≤ k.len) :
    (k.getSlice lo hi).tagged = slice k.tagged lo hi := by
  rw [tagged, units_getSlice k hlo hhi, ns_getSlice, slice, slice, tagged, map_drop, map_take]

theorem tagged_drop (hlo : lo ≤ k.len) : (k.getSlice lo k.len).tagged = k.tagged.drop lo := by
  rw [tagged_getSlice k hlo le_rfl, slice, take_of_length_le (by simp)]

theorem tagged_take (hhi : hi ≤ k.len) : (k.getSlice 0 hi).tagged = k.tagged.take hi := by
  rw [tagged_getSlice k (Nat.zero_le _) hhi, slice, drop_zero]

def IsUnit (u : PyVal) : Prop := (∃ i, u = .int i) ∨ ∃ i j, u = pair i j

theorem isUnit_of_mem_units {k : RadixKey} {u : PyVal} (hu : u ∈ k.units) : IsUnit u := by
  have hbigrams : ∀ ts : List Int, ∀ u ∈ bigrams ts, IsUnit u := by
    intro ts
    induction ts with
    | nil => simp [bigrams]
    | cons a ts ih =>
      cases ts with
      | nil => simp [bigrams]
      | cons b ts =>
        intro u hu
        rcases mem_cons.mp hu with rfl | hu
        · exact .inr ⟨a, b, rfl⟩
        · exact ih u hu
  unfold units at hu
  split_ifs at hu
  · exact hbigrams _ u hu
  · obtain ⟨i, -, rfl⟩ := mem_map.mp hu
    exact .inl ⟨i, rfl⟩

/-- The untagged dictionary keys: an integer, a tuple that starts with one, or a
tuple that starts with a pair. -/
inductive IsPlain : PyVal → Prop
  | int (i : Int) : IsPlain (.int i)
  | ints (i : Int) (rest : PyVal) : IsPlain (.cons (.int i) rest)
  | pairs (i : Int) (rest rest' : PyVal) : IsPlain (.cons (.cons (.int i) rest) rest')

theorem isPlain_pageKey (hus : us ≠ []) (hunits : ∀ u ∈ us, IsUnit u) :
    IsPlain (pageKey pageSize us) := by
  obtain ⟨u, us, rfl⟩ := exists_cons_of_ne_nil hus
  unfold pageKey
  rcases hunits u (by simp) with ⟨i, rfl⟩ | ⟨i, j, rfl⟩
  · split_ifs
    · exact .int i
    · exact .ints i _
  · split_ifs
    · exact .ints i _
    · exact .pairs i _ _

def untag : PyVal → Namespace × PyVal
  | .cons (.cons .none (.cons (.str salt) .nil)) (.cons x .nil) => ((none, some salt), x)
  | .cons (.cons (.str extraKey) (.cons (.str salt) .nil)) (.cons x .nil) =>
    ((some extraKey, some salt), x)
  | .cons (.str extraKey) (.cons x .nil) => ((some extraKey, none), x)
  | x => ((none, none), x)

theorem untag_tag {a : Namespace} (hx : IsPlain x) : untag (tag a x) = (a, x) := by
  obtain ⟨extraKey, salt⟩ := a
  cases salt with
  | some salt => cases extraKey <;> rfl
  | none =>
    cases extraKey with
    | some extraKey => rfl
    | none => cases hx <;> rfl

theorem tag_inj {a b : Namespace} {y : PyVal} (hx : IsPlain x) (hy : IsPlain y)
    (h : tag a x = tag b y) : a = b ∧ x = y := by
  have huntag := congrArg untag h
  rw [untag_tag hx, untag_tag hy] at huntag
  exact Prod.mk.inj huntag

theorem pageKey_inj {vs : List PyVal} (hus : us.length = pageSize) (hvs : vs.length = pageSize)
    (h : pageKey pageSize us = pageKey pageSize vs) : us = vs := by
  unfold pageKey at h
  split_ifs at h with h1
  · obtain ⟨u, rfl⟩ := length_eq_one_iff.mp (hus.trans h1)
    obtain ⟨v, rfl⟩ := length_eq_one_iff.mp (hvs.trans h1)
    simpa using h
  · simpa using h

/-- Two keys have the same child key exactly when they agree, namespace
included, on their first page. -/
theorem childKey_eq_iff (hps : 0 < pageSize) (ha : pageSize ≤ a.len) (hb : pageSize ≤ b.len) :
    a.childKey pageSize = b.childKey pageSize ↔ a.tagged.take pageSize = b.tagged.take pageSize := by
  have hla : (a.units.take pageSize).length = pageSize := by simpa using ha
  have hlb : (b.units.take pageSize).length = pageSize := by simpa using hb
  have hna : a.units.take pageSize ≠ [] := ne_nil_of_length_pos (by omega)
  have hnb : b.units.take pageSize ≠ [] := ne_nil_of_length_pos (by omega)
  have hua : ∀ u ∈ a.units.take pageSize, IsUnit u :=
    fun u hu => isUnit_of_mem_units (mem_of_mem_take hu)
  have hub : ∀ u ∈ b.units.take pageSize, IsUnit u :=
    fun u hu => isUnit_of_mem_units (mem_of_mem_take hu)
  rw [childKey_eq a ha, childKey_eq b hb, Except.ok.injEq, tagged, tagged, ← map_take, ← map_take]
  constructor
  · intro h
    obtain ⟨hns, hpage⟩ := tag_inj (isPlain_pageKey hna hua) (isPlain_pageKey hnb hub) h
    rw [hns, pageKey_inj hla hlb hpage]
  intro h
  have hns : a.ns = b.ns := by
    obtain ⟨u, us, hu⟩ := exists_cons_of_ne_nil hna
    obtain ⟨v, vs, hv⟩ := exists_cons_of_ne_nil hnb
    rw [hu, hv] at h
    simp only [map_cons, cons.injEq, Prod.mk.injEq] at h
    exact h.1.1
  have hus : a.units.take pageSize = b.units.take pageSize := by
    have hsnd := congrArg (map Prod.snd) h
    simpa using hsnd
  rw [hns, hus]

theorem compatible_of_take_eq {n : Nat} (hn : 0 < n) (ha : n ≤ a.len) (hb : n ≤ b.len)
    (h : a.tagged.take n = b.tagged.take n) : a.ns = b.ns ∧ a.isBigram = b.isBigram := by
  have hmode : ∀ {k : RadixKey} {u : PyVal} {us : List PyVal}, k.units = u :: us →
      (k.isBigram = true ↔ ∃ i j, u = pair i j) := by
    intro k u us hk
    have hu : u ∈ k.units := by simp [hk]
    unfold units at hu
    split_ifs at hu with hbig
    · rw [hbig]
      refine ⟨fun _ => ?_, fun _ => rfl⟩
      rcases isUnit_of_mem_units (k := k) (u := u) (by simp [hk]) with ⟨i, rfl⟩ | h
      · have hpairs : ∀ ts : List Int, PyVal.int i ∉ bigrams ts := by
          intro ts
          induction ts with
          | nil => simp [bigrams]
          | cons a ts ih =>
            cases ts with
            | nil => simp [bigrams]
            | cons b ts =>
              rw [bigrams, mem_cons]
              rintro (heq | hin)
              · simp [pair, PyVal.tuple] at heq
              · exact ih hin
        exact absurd hu (hpairs _)
      · exact h
    · obtain ⟨i, -, rfl⟩ := mem_map.mp hu
      constructor
      · exact fun hb => absurd hb hbig
      · rintro ⟨i', j, heq⟩
        simp [pair, PyVal.tuple] at heq
  have hna : a.units ≠ [] := ne_nil_of_length_pos (by rw [length_units]; omega)
  have hnb : b.units ≠ [] := ne_nil_of_length_pos (by rw [length_units]; omega)
  obtain ⟨u, us, hu⟩ := exists_cons_of_ne_nil hna
  obtain ⟨v, vs, hv⟩ := exists_cons_of_ne_nil hnb
  obtain ⟨n, rfl⟩ : ∃ m, n = m + 1 := ⟨n - 1, by omega⟩
  rw [tagged, tagged, hu, hv] at h
  simp only [map_cons, take_succ_cons, cons.injEq, Prod.mk.injEq] at h
  refine ⟨h.1.1, ?_⟩
  have hiff : a.isBigram = true ↔ b.isBigram = true := by
    rw [hmode hu, hmode hv, h.1.2]
  exact Bool.eq_iff_iff.mpr hiff

theorem of_tagged_drop (h : a.tagged = b.tagged.drop j) (hpos : 0 < a.len) :
    a.ns = b.ns ∧ a.units = b.units.drop j := by
  have hunits : a.units = b.units.drop j := by
    have hsnd := congrArg (map Prod.snd) h
    simpa [tagged] using hsnd
  refine ⟨?_, hunits⟩
  have hne : a.units ≠ [] := ne_nil_of_length_pos (by rwa [length_units])
  obtain ⟨u, us, hu⟩ := exists_cons_of_ne_nil hne
  have hmem : (a.ns, u) ∈ b.tagged := by
    apply mem_of_mem_drop
    rw [← h, tagged, hu]
    simp
  rw [tagged, mem_map] at hmem
  obtain ⟨v, -, hv⟩ := hmem
  exact (congrArg Prod.fst hv).symm

theorem matchKey_tagged (a b : RadixKey) (hps : 0 < pageSize)
    (hns : a.ns = b.ns) (hmode : a.isBigram = b.isBigram) :
    a.matchKey b pageSize = .ok (floorTo pageSize (commonLen a.tagged b.tagged)) := by
  have htag : ∀ us vs : List PyVal, ∀ ns : Namespace,
      commonLen (us.map fun u => (ns, u)) (vs.map fun u => (ns, u)) = commonLen us vs := by
    intro us
    induction us with
    | nil => intro vs ns; cases vs <;> rfl
    | cons u us ih =>
      intro vs ns
      cases vs with
      | nil => rfl
      | cons v vs => simp [commonLen, ih]
  rw [matchKey_eq hps hns hmode, tagged, tagged, hns, htag]

end RadixKey

end SparkInfer.Radix
