import SparkInfer.Radix.Holdings

/-!
# Who owns a page

At every moment of a run each page is with the allocator, in the value of one tree
node, or in the unprotected part of one live row.  The protected part of a row
spells the values on the path to the request's locked node, which is how a request
knows that its prefix is not its own to free.
-/

namespace SparkInfer.Radix

open Lib Lib.CommonPrefix Alloc Alloc.Paged List RadixKey RadixCache Trie

variable {H B : Type} {cfg : Config} {hf : HashFns H B}
variable {nodes nodes' : Finset NodeId} {held : List NodeId} {c : RadixCache H B}
variable {live rest : List Req} {N n seqLen : Nat} {P : Multiset Int} {s : Skeleton}
variable {l : List (Atom × Int)} {r : Req}

/-! ## The keys of a request -/

theorem RadixKey.bigrams_initial {xs ys : List Int} (h : xs <+: ys) :
    bigrams xs <+: bigrams ys := by
  obtain ⟨zs, rfl⟩ := h
  cases hxs : xs with
  | nil => exact nil_prefix
  | cons x rest =>
    have htake := bigrams_take (xs ++ zs) rest.length
    rw [show rest.length + 1 = xs.length by simp [hxs], take_left] at htake
    rw [← hxs, htake]
    exact take_prefix _ _

theorem RadixKey.tagged_initial {a b : RadixKey} (hns : a.ns = b.ns)
    (hmode : a.isBigram = b.isBigram) (h : a.rawTokenIds <+: b.rawTokenIds) :
    a.tagged <+: b.tagged := by
  unfold tagged units
  rw [hns, hmode]
  split_ifs
  · exact (bigrams_initial h).map _
  · exact (h.map _).map _

theorem RadixKey.tagged_pageAligned (k : RadixKey) (pageSize : Nat) :
    (k.pageAligned pageSize).tagged = k.tagged.take (floorTo pageSize k.len) := by
  rw [tagged, units_pageAligned, ns_pageAligned, map_take]
  rfl

namespace Req

def atoms (cfg : Config) (r : Req) : List Atom :=
  (new r.tokenIds r.extraKey cfg.isEagle none r.cacheSalt).tagged

theorem atoms_output (r : Req) (tokens : List Int) :
    r.atoms cfg <+: { r with outputIds := r.outputIds ++ tokens }.atoms cfg := by
  refine tagged_initial (by rfl) (by rfl) ?_
  have hraw : ∀ ts, (new ts r.extraKey cfg.isEagle none r.cacheSalt).rawTokenIds = ts :=
    fun ts => take_length
  rw [hraw, hraw, tokenIds, tokenIds, ← append_assoc]
  exact prefix_append _ _

theorem radixKey_initial (cfg : Config) (r : Req) (n : Nat) : (r.radixKey cfg n).tagged <+: r.atoms cfg := by
  rw [radixKey, tagged_pageAligned]
  refine ( take_prefix _ _).trans (tagged_initial rfl rfl ?_)
  have hraw : ∀ ts, (new ts r.extraKey cfg.isEagle none r.cacheSalt).rawTokenIds = ts :=
    fun ts => take_length
  rw [hraw, hraw]
  exact take_prefix _ _

theorem dvd_radixKey (cfg : Config) (r : Req) (n : Nat) : cfg.pageSize ∣ (r.radixKey cfg n).len := by
  rw [radixKey, len_pageAligned]
  exact dvd_floorTo _ _

theorem len_radixKey_le (cfg : Config) (r : Req) (n : Nat) : (r.radixKey cfg n).len ≤ n := by
  rw [radixKey, len_pageAligned]
  refine (floorTo_le _ _).trans ?_
  have hraw : (new (r.tokenIds.take n) r.extraKey cfg.isEagle none r.cacheSalt).rawLen ≤
      n := (rawLen_le _).trans (length_take_le _ _)
  unfold len
  split_ifs <;> omega

theorem tagged_alignedKey (cfg : Config) (r : Req) (n : Nat) :
    (alignedKey cfg (r.radixKey cfg n)).tagged = (r.radixKey cfg n).tagged := by
  have hview : ((r.radixKey cfg n).maybeToBigramView cfg.isEagle none).1 = r.radixKey cfg n := by
    have hmode : (r.radixKey cfg n).isBigram = cfg.isEagle := by
      rw [radixKey, isBigram_pageAligned]
      rfl
    unfold maybeToBigramView
    rw [hmode]
    cases cfg.isEagle <;> rfl
  rw [alignedKey, hview, tagged_pageAligned, floorTo, Nat.div_mul_cancel (r.dvd_radixKey cfg n),
    ← length_tagged, take_length]

theorem len_alignedKey (cfg : Config) (r : Req) (n : Nat) :
    (alignedKey cfg (r.radixKey cfg n)).len = (r.radixKey cfg n).len := by
  rw [← length_tagged, r.tagged_alignedKey cfg, length_tagged]

theorem matchKey_initial (cfg : Config) (r : Req) (limit : Option Nat) :
    (alignedKey cfg (r.matchKey limit)).tagged <+: r.atoms cfg := by
  rw [alignedKey, tagged_pageAligned]
  refine ( take_prefix _ _).trans (tagged_initial ?_ ?_ ?_)
  · unfold maybeToBigramView
    split_ifs <;> rfl
  · cases cfg.isEagle <;> rfl
  have hraw : (new r.tokenIds r.extraKey cfg.isEagle none r.cacheSalt).rawTokenIds =
      r.tokenIds := take_length
  rw [hraw]
  unfold maybeToBigramView
  split_ifs <;> exact take_prefix _ _

end Req

/-! ## Rows -/

theorem gains_releaseOverallocated (a : Paged) (hk : 0 < a.pageSize) (r : Req) (n : Nat) :
    Gains a (releaseOverallocated a r n)
      (pagesOf a.pageSize (r.row.drop (ceilDiv n a.pageSize * a.pageSize)) : Multiset Int) := by
  have hstart : (if 1 < a.pageSize then ceilDiv n a.pageSize * a.pageSize else n) =
      ceilDiv n a.pageSize * a.pageSize := by
    split_ifs
    · rfl
    · rw [show a.pageSize = 1 by omega]
      exact (ceilDiv_mul_of_dvd one_pos (one_dvd n)).symm
  unfold releaseOverallocated
  simp only [hstart]
  split_ifs with hlt
  · rw [slice, take_length]
    exact gains_freeSegments_one a _ (dvd_mul_left _ _)
  · rw [drop_of_length_le (Nat.le_of_not_lt hlt), pagesOf, stride_nil]
    exact .refl a

/-! ## The invariant -/

/-- `l` is the protected prefix of a request: the path to its locked node, spelled
by its first tokens and the head of its row. -/
structure Anchored (cfg : Config) (s : Skeleton) (nodes : Finset NodeId) (r : Req)
    (l : List (Atom × Int)) : Prop where
  path : (s.trie nodes).Path r.lastNode l
  len : l.length = r.cacheProtectedLen
  keys : keys l <+: r.atoms cfg
  vals : l.map Prod.snd <+: r.row

structure ReqOk (cfg : Config) (s : Skeleton) (nodes : Finset NodeId) (r : Req) : Prop where
  anchored : ∃ l, Anchored cfg s nodes r l
  exact : Exact cfg.pageSize r.row
  prefixIndices : r.prefixIndices <+: r.row

def livePages (pageSize : Nat) (live : List Req) : Multiset Int :=
  (live.map fun r => (pagesOf pageSize r.unprotected : Multiset Int)).sum

/-- Allocator, tree and live rows share the pages `1 .. numPages` out. -/
structure Owned (cfg : Config) (hf : HashFns H B) (c : RadixCache H B) (live : List Req)
    (nodes : Finset NodeId) (numPages : Nat) (P : Multiset Int) : Prop where
  inv : Inv cfg hf c nodes (live.map Req.lastNode)
  disabled : cfg.disable = true → nodes = {c.tree.rootNode}
  holds : Holds cfg c nodes numPages P
  reqs : ∀ r ∈ live, ReqOk cfg c.tree.toSkeleton nodes r
  total : P + livePages cfg.pageSize live = (arange 1 numPages : Multiset Int)

section Basics

variable {s' : Skeleton}

section

variable (h : Anchored cfg s nodes r l)
include h

theorem Anchored.dvd (hs : Shape cfg.pageSize s nodes) : cfg.pageSize ∣ r.cacheProtectedLen :=
  h.len ▸ hs.wf.dvd_path h.path

theorem Anchored.le_row : r.cacheProtectedLen ≤ r.row.length := by
  have hle := h.vals.length_le
  rwa [length_map, h.len] at hle

theorem Anchored.vals_eq : l.map Prod.snd = r.row.take r.cacheProtectedLen := by
  rw [prefix_iff_eq_take.mp h.vals, length_map, h.len]

end

theorem ReqOk.mono (h : ReqOk cfg s nodes r)
    (hpath : ∀ l, (s.trie nodes).Path r.lastNode l → (s'.trie nodes').Path r.lastNode l) :
    ReqOk cfg s' nodes' r := by
  obtain ⟨l, hl⟩ := h.anchored
  exact { h with anchored := ⟨l, hpath l hl.path, hl.len, hl.keys, hl.vals⟩ }

theorem ReqOk.dvd (h : ReqOk cfg s nodes r) (hs : Shape cfg.pageSize s nodes) :
    cfg.pageSize ∣ r.cacheProtectedLen := by
  obtain ⟨l, hl⟩ := h.anchored
  exact hl.dvd hs

end Basics

@[simp] theorem livePages_nil (pageSize : Nat) : livePages pageSize [] = 0 := rfl

@[simp] theorem livePages_cons (pageSize : Nat) : livePages pageSize (r :: live) =
      (pagesOf pageSize r.unprotected : Multiset Int) + livePages pageSize live := rfl

theorem Locked.perm {t : Tree} {held' : List NodeId} (h : Locked t nodes held)
    (hp : held.Perm held') : Locked t nodes held' := by
  refine ⟨fun n hn => h.held_mem n (hp.mem_iff.mpr hn), ?_⟩
  intro n hn hne
  rw [h.cover n hn hne]
  congr 1
  exact hp.countP_eq _

theorem Owned.perm {live' : List Req} (h : Owned cfg hf c live nodes N P) (hp : live.Perm live') :
    Owned cfg hf c live' nodes N P := by
  refine ⟨{ h.inv with locked := h.inv.locked.perm (hp.map _) }, h.disabled,
    h.holds, fun r hr => h.reqs r (hp.mem_iff.mpr hr), ?_⟩
  rw [← h.total, livePages, livePages, (hp.map _).sum_eq]

section Insert

variable [DecidableEq B]
/-- After the key of length `K` was inserted with the head of the row, the tree has
taken the row over from `l` on. -/
structure Inserted (cfg : Config) (hf : HashFns H B) (c : RadixCache H B)
    (nodes : Finset NodeId) (held : List NodeId) (r : Req) (N K : Nat) (P : Multiset Int)
    (e : Nat) (c' : RadixCache H B) (nodes' : Finset NodeId) : Prop where
  inv : Inv cfg hf c' nodes' held
  holds : Holds cfg c' nodes' N (P + (pagesOf cfg.pageSize (slice r.row e K) : Multiset Int))
  path : ∀ x l, (c.tree.trie nodes).Path x l → (c'.tree.trie nodes').Path x l
  dvd : cfg.pageSize ∣ e
  covers : r.cacheProtectedLen ≤ e
  le : e ≤ K

theorem Anchored.walk_covers {l₀ : List (Atom × Int)} {w : List Atom} {n : NodeId}
    (ha : Anchored cfg s nodes r l₀) (hs : Shape cfg.pageSize s nodes) (hw : w <+: r.atoms cfg)
    (hlen : r.cacheProtectedLen ≤ w.length) (hloc : (s.trie nodes).Located cfg.pageSize w n l) :
    r.cacheProtectedLen ≤ l.length ∧ l.take r.cacheProtectedLen = l₀ := by
  have hkeys : Trie.keys l₀ = w.take l₀.length := by
    have hatoms := prefix_iff_eq_take.mp ha.keys
    rw [length_map] at hatoms
    have hwatoms := prefix_iff_eq_take.mp hw
    rw [hwatoms, take_take, min_eq_left (by rw [ha.len]; exact hlen)]
    exact hatoms
  have hentry := entry_of_path hs.wf ha.path
  have hle : l₀.length ≤ l.length := hs.wf.longest hloc hentry hkeys
  have hdvd := ha.dvd hs
  rw [ha.len] at hle
  refine ⟨hle, ?_⟩
  have hcut := (entry_of_path hs.wf hloc.path).take hdvd
  apply hs.wf.entry_unique hcut hentry
  rw [hkeys, ha.len, Trie.keys, map_take]
  change (Trie.keys l).take _ = _
  rw [hloc.key, take_take, min_eq_left hle]

theorem Owned.insert (h : Owned cfg hf c (r :: rest) nodes N P) (hen : cfg.disable = false)
    (hcan : World.CanCache cfg r n) (priority : Int) (chunked : Bool) : ∃ c' nodes' l last,
      c.insert cfg hf (r.radixKey cfg n) (some (r.row.take (r.radixKey cfg n).len)) priority
        chunked = .ok (c', ⟨l.length, some last⟩) ∧
      Inserted cfg hf c nodes ((r :: rest).map Req.lastNode) r N (r.radixKey cfg n).len P
        l.length c' nodes' ∧
      (l.map Prod.snd).take r.cacheProtectedLen = r.row.take r.cacheProtectedLen ∧
      Trie.keys l = (r.radixKey cfg n).tagged.take l.length ∧
      (c'.tree.trie nodes').Entry cfg.pageSize
        (insertedWord (r.radixKey cfg n).tagged (r.row.take (r.radixKey cfg n).len) l) := by
  have hok := h.reqs r (by simp)
  obtain ⟨l₀, hanchor⟩ := hok.anchored
  have hKn := r.len_radixKey_le cfg n
  have hvlen := length_take_of_le (hKn.trans hcan.le_row)
  have hfit : ValueFits cfg (r.radixKey cfg n) (some (r.row.take (r.radixKey cfg n).len)) := by
    intro v hv
    cases hv
    rw [hvlen, r.len_alignedKey cfg]
  have hvalue : insertValue cfg (r.radixKey cfg n) (some (r.row.take (r.radixKey cfg n).len)) =
      r.row.take (r.radixKey cfg n).len := by
    simp only [insertValue, valueOrTokenIds, r.len_alignedKey cfg, take_take, min_self]
  obtain ⟨c₁, nodes₁, m, l, c', nodes', last, hrun, hsplits, hloc, hend⟩ :=
    insert_spec h.inv hen (r.radixKey cfg n) _ priority chunked hfit
  rw [r.tagged_alignedKey cfg] at hloc hend
  rw [hvalue] at hend
  have hs₁ := hsplits.shape h.inv.shape
  have hanchor₁ : Anchored cfg c₁.tree.toSkeleton nodes₁ r l₀ :=
    { hanchor with path := hsplits.path h.inv.shape hanchor.path }
  obtain ⟨hcovers, htake⟩ := hanchor₁.walk_covers hs₁ (r.radixKey_initial cfg n)
    (by rw [length_tagged]; exact hcan.covers) hloc
  have hdvd := hs₁.wf.dvd_path hloc.path
  have hle : l.length ≤ (r.radixKey cfg n).len := by
    have hlen := congrArg length hloc.key
    rw [length_map, length_take, length_tagged] at hlen
    omega
  refine ⟨c', nodes', l, last, hrun, ⟨hend.inv (hsplits.inv h.inv) hloc.path, ?_, ?_, hdvd, hcovers,
    hle⟩, ?_, hloc.key, ?_⟩
  · exact hend.holds hs₁ (hsplits.holds h.inv.shape h.holds)
      (by rw [hvlen, length_tagged])
      ((hok.exact.take cfg.pageSize_pos _).drop cfg.pageSize_pos hdvd)
  · intro x lx hx
    exact hend.path hs₁ (hsplits.path h.inv.shape hx)
  · rw [← map_take, htake, hanchor.vals_eq]
  rw [hend.entry hs₁ hloc.path]
  rcases lt_or_ge l.length (r.radixKey cfg n).tagged.length with hlt | hge
  · right
    refine ⟨(r.radixKey cfg n).tagged.length, ?_, hlt, le_rfl, ?_⟩
    · rw [length_tagged]
      exact r.dvd_radixKey cfg n
    · have hword := length_insertedWord (by rw [hvlen, length_tagged] :
        (r.row.take (r.radixKey cfg n).len).length = (r.radixKey cfg n).tagged.length) hlt.le
      exact (take_of_length_le hword.le).symm
  · left
    rw [insertedWord, drop_of_length_le hge, zip_nil_left, append_nil]
    exact entry_of_path hs₁.wf hloc.path

theorem slice_take_of_le {α : Type} (xs : List α) {lo hi m : Nat} (h : hi ≤ m) :
    slice (xs.take m) lo hi = slice xs lo hi := by
  rw [slice, slice, take_take, min_eq_left h]

omit [DecidableEq B] in
theorem Inv.of_allocator (h : Inv cfg hf c nodes held) (a : Paged) :
    Inv cfg hf { c with allocator := a } nodes held :=
  { h with }

omit [DecidableEq B] in
theorem Inv.relock {x y : NodeId} (h : Inv cfg hf c nodes (x :: held)) (hen : cfg.disable = false)
    (hy : y ∈ nodes) : ∃ c₁ t d₁ d₂, c.decLockRef cfg x = .ok (c₁, d₁) ∧
      c₁.incLockRef cfg y = .ok ({ c with tree := t }, d₂) ∧
      t.toSkeleton = c.tree.toSkeleton ∧ Inv cfg hf { c with tree := t } nodes (y :: held) := by
  obtain ⟨t₁, d₁, hdec, hskel₁, -, hinv₁⟩ := decLockRef_spec h hen mem_cons_self
  rw [erase_cons_head] at hinv₁
  obtain ⟨t₂, d₂, hinc, hskel₂, -, hinv₂⟩ := incLockRef_spec hinv₁ hen hy
  exact ⟨_, t₂, d₁, d₂, hdec, hinc, hskel₂.trans hskel₁, hinv₂⟩

theorem rewritten_row {new row : List Int} {p : Nat} (hhead : new.take p = row.take p) :
    row.take p ++ new.drop p ++ row.drop new.length = new ++ row.drop new.length := by
  rw [← hhead, take_append_drop]

variable (h : Owned cfg hf c (r :: rest) nodes N P)
include h

theorem Owned.cacheUnfinished (hcan : World.CanCache cfg r n) (chunked : Bool) :
    ∃ c' r' nodes' Q, c.cacheUnfinishedReq cfg hf r n chunked = .ok (c', r') ∧
      Owned cfg hf c' (r' :: rest) nodes' N Q := by
  cases hen : cfg.disable with
  | true => exact ⟨c, r, nodes, P, by simp [cacheUnfinishedReq, hen], h⟩
  | false =>
  have hok := h.reqs r (by simp)
  have hprot := hok.dvd h.inv.shape
  have hKn := r.len_radixKey_le cfg n
  have hKrow := hKn.trans hcan.le_row
  have hKdvd := r.dvd_radixKey cfg n
  have hatoms := r.radixKey_initial cfg n
  have htagged := r.tagged_alignedKey cfg n
  have htokens := length_take_of_le hcan.le_tokens
  obtain ⟨c₁, nodes₁, l, last, hinsert, hins, hhead, hkeys, hentry⟩ :=
    h.insert hen hcan (r.priority.getD 0) chunked
  generalize hK : r.radixKey cfg n = K at *
  have hvlen : (r.row.take K.len).length = K.tagged.length := by
    rw [length_take_of_le hKrow, length_tagged]
  -- the duplicates are freed
  have hgain := gains_freeSegment c₁.allocator (slice r.row r.cacheProtectedLen l.length)
    (hins.holds.pageSize.symm ▸ hprot)
  rw [hins.holds.pageSize] at hgain
  have hholds := hins.holds.gains hgain
  -- the key is found again, along the inserted word
  obtain ⟨c₂, nodes₂, m, l₂, hmatch, hsplits, hloc⟩ := matchPrefix_spec
    (c := { c₁ with
      allocator := c₁.allocator.freeSegment (slice r.row r.cacheProtectedLen l.length)
        r.cacheProtectedLen }) hins.inv.shape hen K
  rw [htagged] at hloc
  have hs₂ := hsplits.shape hins.inv.shape
  have hword : l₂ = insertedWord K.tagged (r.row.take K.len) l :=
    hs₂.wf.eq_of_located hloc ((hsplits.entry hins.inv.shape).mpr hentry)
      (keys_insertedWord hvlen hkeys)
  have hl₂keys : keys l₂ = K.tagged := hword ▸ keys_insertedWord hvlen hkeys
  have hl₂len : (l₂.map Prod.snd).length = K.len := by
    have hlen := congrArg List.length hl₂keys
    rwa [length_map, length_tagged, ← length_map Prod.snd] at hlen
  have hnew : (l₂.map Prod.snd).take r.cacheProtectedLen = r.row.take r.cacheProtectedLen := by
    rw [hword, vals_insertedWord hvlen, take_append_of_le_length, hhead]
    rw [length_map]
    exact hins.covers
  -- the lock moves to the node of the whole key
  obtain ⟨c₃, t, d₁, d₂, hdec, hinc, hskel, hinv⟩ :=
    (hsplits.inv (hins.inv.of_allocator _)).relock hen (hs₂.wf.mem_of_path hloc.path)
  have hholds₂ := (hsplits.holds hins.inv.shape hholds).of_skeleton hskel
  refine ⟨{ c₂ with tree := t }, { r with
      row := l₂.map Prod.snd ++ r.row.drop K.len
      cacheProtectedLen := K.len
      prefixIndices :=
        if K.len < n then l₂.map Prod.snd ++ (r.row.take n).drop K.len else l₂.map Prod.snd
      lastNode := m }, nodes₂, _, ?_, hinv, ?_, hholds₂, ?_, ?_⟩
  · have hrow := rewritten_row hnew
    rw [hl₂len] at hrow
    have hkv : (r.row.take n).length = n := length_take_of_le hcan.le_row
    simp only [cacheUnfinishedReq, hen, Bool.false_eq_true, if_false, htokens, hK,
      take_take, Nat.min_eq_left hKn, hinsert, ok_bind, pure_ok,
      slice_take_of_le _ (hins.le.trans hKn), hmatch, hl₂len, ne_eq, not_true, hdec, hinc, hrow, hkv]
  · simp [hen]
  · intro q hq
    rcases mem_cons.mp hq with rfl | hq
    · refine ⟨⟨l₂, ?_, by rw [← hl₂len, length_map], hl₂keys ▸ hatoms, prefix_append _ _⟩, ?_, ?_⟩
      · rw [hskel]
        exact hloc.path
      · exact ((hsplits.holds hins.inv.shape hholds).exact_path hs₂ hloc.path).append
          cfg.pageSize_pos (hl₂len.symm ▸ hKdvd) (hok.exact.drop cfg.pageSize_pos hKdvd)
      split_ifs
      · rw [drop_take]
        exact (prefix_append_right_inj _).mpr ( take_prefix _ _)
      · exact prefix_append _ _
    · refine (h.reqs q (mem_cons_of_mem _ hq)).mono fun lq hlq => ?_
      rw [hskel]
      exact hsplits.path hins.inv.shape (hins.path _ _ hlq)
  · have hfirst := pagesOf_drop_cut cfg.pageSize_pos r.row hprot hins.dvd hins.covers
    have hsecond := pagesOf_drop_cut cfg.pageSize_pos r.row hins.dvd hKdvd hins.le
    have hrest : (l₂.map Prod.snd ++ r.row.drop K.len).drop K.len = r.row.drop K.len := by
      rw [← hl₂len, drop_left]
    rw [← h.total, livePages_cons, livePages_cons, Req.unprotected, Req.unprotected, hrest, hfirst,
      hsecond]
    abel

theorem Owned.insertFinished (hen : cfg.disable = false)
    (hcan : World.CanCache cfg r n) (isInsert : Bool) :
    ∃ c' nodes' e, c.insertFinished cfg hf r isInsert (r.radixKey cfg n)
        (r.row.take (r.radixKey cfg n).len) = .ok (c', e) ∧
      Inserted cfg hf c nodes ((r :: rest).map Req.lastNode) r N (r.radixKey cfg n).len P e c'
        nodes' := by
  cases isInsert with
  | true =>
    obtain ⟨c', nodes', l, last, hrun, hins, -⟩ := h.insert hen hcan (r.priority.getD 0) false
    refine ⟨c', nodes', l.length, ?_, hins⟩
    simp only [RadixCache.insertFinished, if_true, hrun, ok_bind, pure_ok]
  | false =>
    refine ⟨c, nodes, (r.radixKey cfg n).len, by simp [RadixCache.insertFinished], h.inv, ?_,
      fun _ _ hx => hx, r.dvd_radixKey cfg n, hcan.covers, le_rfl⟩
    have hnil : slice r.row (r.radixKey cfg n).len (r.radixKey cfg n).len = [] := by
      rw [slice, drop_of_length_le (length_take_le _ _)]
    rw [hnil, pagesOf]
    simpa using h.holds

omit h in
omit [DecidableEq B] in
theorem Holds.releaseOverallocated (h : Holds cfg c nodes N P) (r : Req) (n : Nat) :
    Holds cfg { c with allocator := releaseOverallocated c.allocator r n } nodes N
      (P + (pagesOf cfg.pageSize (r.row.drop (ceilDiv n cfg.pageSize * cfg.pageSize)) :
        Multiset Int)) := by
  have hgain := gains_releaseOverallocated c.allocator (h.pageSize.symm ▸ cfg.pageSize_pos) r n
  rw [h.pageSize] at hgain
  exact h.gains hgain

theorem Owned.releaseKvCache (hcan : World.CanCache cfg r n) (isInsert : Bool) :
    ∃ c' nodes' Q, c.releaseKvCache cfg hf r isInsert n = .ok c' ∧
      Owned cfg hf c' rest nodes' N Q := by
  have hok := h.reqs r (by simp)
  have hprot := hok.dvd h.inv.shape
  have hKn := r.len_radixKey_le cfg n
  cases hen : cfg.disable with
  | true =>
    have hgain := gains_freeSegment c.allocator (slice r.row r.cacheProtectedLen n)
      (h.holds.pageSize.symm ▸ hprot)
    rw [h.holds.pageSize] at hgain
    refine ⟨{ c with
      allocator := releaseOverallocated
        (c.allocator.freeSegment (slice r.row r.cacheProtectedLen n) r.cacheProtectedLen) r n },
      nodes, _, ?_, { h.inv with locked := ⟨?_, ?_⟩ }, h.disabled,
      (h.holds.gains hgain).releaseOverallocated r n, ?_, ?_⟩
    · simp only [RadixCache.releaseKvCache, RadixCache.cacheFinishedReq, hen, if_true, ok_bind, pure_ok]
    · exact (forall_mem_cons.mp h.inv.locked.held_mem).2
    · -- only the root, which carries no lock
      intro x hx hne
      rw [h.disabled hen] at hx
      exact absurd (Finset.mem_singleton.mp hx) hne
    · exact (forall_mem_cons.mp h.reqs).2
    · have htail := Exact.pagesOf_tail cfg.pageSize_pos hok.exact hprot (hcan.covers.trans hKn)
      rw [← h.total, livePages_cons, Req.unprotected, htail]
      rw [slice]
      abel
  | false =>
    have htokens := length_take_of_le hcan.le_tokens
    have hKdvd := r.dvd_radixKey cfg n
    obtain ⟨c₁, nodes₁, e, hinsert, hins⟩ := h.insertFinished hen hcan
      (if cfg.disableFinishedInsert then false else isInsert)
    generalize hK : r.radixKey cfg n = K at *
    have hKrow := hKn.trans hcan.le_row
    have hps := hins.holds.pageSize
    -- the duplicates, then the tail after the key
    have hgain := gains_freeSegments c₁.allocator (hps.symm ▸ cfg.pageSize_pos)
      (slice r.row r.cacheProtectedLen e) ((r.row.take n).drop K.len) (hps.symm ▸ hprot)
      (hps.symm ▸ hKdvd) (by
        have hlen : (slice r.row r.cacheProtectedLen e).length = e - r.cacheProtectedLen := by
          rw [slice, length_drop, length_take_of_le (hins.le.trans hKrow)]
        have hcov := hins.covers
        have hle := hins.le
        omega)
    rw [hps] at hgain
    obtain ⟨t, d, hdec, hskel, -, hinv⟩ := decLockRef_spec
      (hins.inv.of_allocator (c₁.allocator.freeSegments
        [(slice r.row r.cacheProtectedLen e, r.cacheProtectedLen),
          ((r.row.take n).drop K.len, K.len)])) hen mem_cons_self
    rw [map_cons, erase_cons_head] at hinv
    have hholds := ((hins.holds.gains hgain).of_skeleton hskel).releaseOverallocated r n
    refine ⟨_, nodes₁, _, ?_, hinv.of_allocator _, ?_, hholds, ?_, ?_⟩
    · simp only [RadixCache.releaseKvCache, RadixCache.cacheFinishedReq, hen,
        Bool.false_eq_true, if_false, htokens, hK, take_take, Nat.min_eq_left hKn, hinsert,
        ok_bind, pure_ok, slice_take_of_le _ (hins.le.trans hKn), hdec]
    · simp [hen]
    · intro q hq
      refine (h.reqs q (mem_cons_of_mem _ hq)).mono fun lq hlq => ?_
      rw [hskel]
      exact hins.path _ _ hlq
    · have hfirst := pagesOf_drop_cut cfg.pageSize_pos r.row hprot hins.dvd hins.covers
      have hsecond := pagesOf_drop_cut cfg.pageSize_pos r.row hins.dvd hKdvd hins.le
      have htail := Exact.pagesOf_tail cfg.pageSize_pos hok.exact hKdvd hKn
      rw [← h.total, livePages_cons, Req.unprotected, hfirst, hsecond, htail]
      abel

end Insert

section Acts

section

variable (h : Owned cfg hf c live nodes N P)
include h

theorem Owned.splits {c' : RadixCache H B} (hen : cfg.disable = false)
    (hsplits : Splits cfg c nodes c' nodes') : Owned cfg hf c' live nodes' N P := by
  refine ⟨hsplits.inv h.inv, ?_, hsplits.holds h.inv.shape h.holds, ?_, h.total⟩
  · simp [hen]
  · exact fun q hq => (h.reqs q hq).mono fun _ hl => hsplits.path h.inv.shape hl

theorem Owned.matchPrefix (key : RadixKey) :
    ∃ c' res nodes', c.matchPrefix cfg key = .ok (c', res) ∧ Owned cfg hf c' live nodes' N P := by
  cases hen : cfg.disable with
  | true =>
    exact ⟨c, ⟨[], c.tree.rootNode⟩, nodes,
      by simp only [RadixCache.matchPrefix, hen, Bool.true_or, if_true], h⟩
  | false =>
    obtain ⟨c', nodes', n, l, hrun, hsplits, -⟩ := matchPrefix_spec h.inv.shape hen key
    exact ⟨c', _, nodes', hrun, h.splits hen hsplits⟩

theorem Owned.admitReq (r : Req) (limit : Option Nat) :
    ∃ c' r' nodes', c.admitReq cfg r limit = .ok (c', r') ∧
      Owned cfg hf c' (r' :: live) nodes' N P := by
  cases hen : cfg.disable with
  | true =>
    refine ⟨c, { r with
        row := []
        prefixIndices := []
        cacheProtectedLen := 0
        lastNode := c.tree.rootNode }, nodes, ?_, { h.inv with locked := ⟨?_, ?_⟩ }, h.disabled,
      h.holds, forall_mem_cons.mpr ⟨?_, h.reqs⟩, ?_⟩
    · simp [RadixCache.admitReq, RadixCache.matchPrefix, RadixCache.incLockRef, hen, ok_bind, pure_ok]
    · exact forall_mem_cons.mpr ⟨h.inv.shape.root_mem, h.inv.locked.held_mem⟩
    · intro x hx hne
      rw [h.disabled hen] at hx
      exact absurd (Finset.mem_singleton.mp hx) hne
    · exact ⟨⟨[], path_root _, rfl, nil_prefix, nil_prefix⟩, .nil, nil_prefix⟩
    · rw [livePages_cons]
      simpa [Req.unprotected, pagesOf] using h.total
  | false =>
    obtain ⟨c₁, nodes₁, n, l, hrun, hsplits, hloc⟩ :=
      matchPrefix_spec h.inv.shape hen (r.matchKey limit)
    have h₁ := h.splits hen hsplits
    obtain ⟨t, d, hinc, hskel, -, hinv⟩ :=
      incLockRef_spec h₁.inv hen (h₁.inv.shape.wf.mem_of_path hloc.path)
    have hholds := h₁.holds.of_skeleton hskel
    have hpath : ∀ x lx, (c₁.tree.trie nodes₁).Path x lx →
        (t.toSkeleton.trie nodes₁).Path x lx := by
      intro x lx hx
      rwa [hskel]
    refine ⟨{ c₁ with tree := t }, { r with
        row := l.map Prod.snd
        prefixIndices := l.map Prod.snd
        cacheProtectedLen := (l.map Prod.snd).length
        lastNode := n }, nodes₁, ?_, hinv, ?_, hholds, ?_, ?_⟩
    · simp [RadixCache.admitReq, hrun, hinc]
    · simp [hen]
    · intro q hq
      rcases mem_cons.mp hq with rfl | hq
      · refine ⟨⟨l, hpath _ _ hloc.path, by rw [length_map], ?_, prefix_rfl⟩, ?_, prefix_rfl⟩
        · have htake : keys l <+: (alignedKey cfg (r.matchKey limit)).tagged := by
            rw [hloc.key]
            exact take_prefix _ _
          exact htake.trans (r.matchKey_initial cfg limit)
        · exact h₁.holds.exact_path h₁.inv.shape hloc.path
      · exact (h₁.reqs q hq).mono fun lq hlq => hpath _ _ hlq
    · rw [livePages_cons, Req.unprotected, drop_length]
      simpa [pagesOf] using h₁.total

end

theorem ReqOk.lengthen {r' : Req} (h : ReqOk cfg s nodes r) (hnode : r'.lastNode = r.lastNode)
    (hprot : r'.cacheProtectedLen = r.cacheProtectedLen) (hatoms : r.atoms cfg <+: r'.atoms cfg)
    (hrow : r.row <+: r'.row) (hexact : Exact cfg.pageSize r'.row)
    (hindices : r'.prefixIndices = r.prefixIndices) : ReqOk cfg s nodes r' := by
  obtain ⟨l, hl⟩ := h.anchored
  refine ⟨⟨l, ?_, ?_, hl.keys.trans hatoms, hl.vals.trans hrow⟩, hexact, ?_⟩
  · rw [hnode]
    exact hl.path
  · rw [hprot]
    exact hl.len
  · rw [hindices]
    exact h.prefixIndices.trans hrow

section

variable (h : Owned cfg hf c (r :: rest) nodes N P)
include h

theorem Owned.output (tokens : List Int) :
    Owned cfg hf c ({ r with outputIds := r.outputIds ++ tokens } :: rest) nodes N P := by
  obtain ⟨hok, hrest⟩ := forall_mem_cons.mp h.reqs
  refine { h with reqs := forall_mem_cons.mpr ⟨?_, hrest⟩ }
  exact hok.lengthen rfl rfl (r.atoms_output tokens) prefix_rfl hok.exact rfl

theorem Owned.extends {res : Option (List Int) × Paged}
    (hext : Extends c.allocator r.row seqLen res) : ∃ Q, Owned cfg hf { c with allocator := res.2 }
      ((match res.1 with
        | none => r
        | some out => { r with row := r.row ++ out }) :: rest) nodes N Q := by
  obtain ⟨hok, hrest⟩ := forall_mem_cons.mp h.reqs
  have hps := h.holds.pageSize
  cases hext with
  | failed hloses =>
    obtain ⟨Q, hQ, hholds⟩ := h.holds.loses hloses
    have hPQ : P = Q := by simpa using hQ
    exact ⟨Q, h.inv.of_allocator _, h.disabled, hholds, h.reqs, hPQ ▸ h.total⟩
  | @extended out new a' hloses hlen hexact hpages =>
    obtain ⟨Q, hQ, hholds⟩ := h.holds.loses hloses
    obtain ⟨l, hl⟩ := hok.anchored
    have hprot := hok.dvd h.inv.shape
    rw [hps] at hexact hpages
    refine ⟨Q, h.inv.of_allocator _, h.disabled, hholds, forall_mem_cons.mpr ⟨?_, hrest⟩, ?_⟩
    · exact hok.lengthen rfl rfl prefix_rfl (prefix_append _ _) hexact rfl
    · -- the protected pages are the same, so the new ones are unprotected
      have hnew : pagesOf cfg.pageSize ((r.row ++ out).drop r.cacheProtectedLen) =
          pagesOf cfg.pageSize r.unprotected ++ new := by
        have hcut := pagesOf_cut cfg.pageSize_pos r.row hprot
        have hcut' := pagesOf_cut cfg.pageSize_pos (r.row ++ out) hprot
        rw [take_append_of_le_length hl.le_row, hpages, hcut, append_assoc] at hcut'
        exact (append_cancel_left hcut').symm
      rw [← h.total, livePages_cons, livePages_cons, Req.unprotected, hnew, hQ, ← Multiset.coe_add]
      abel

theorem Owned.extendReq (hlen : r.prefixIndices.length = r.row.length)
    (hle : r.row.length ≤ seqLen) :
    ∃ Q, Owned cfg hf (c.extendReq r seqLen).1 ((c.extendReq r seqLen).2 :: rest) nodes N Q := by
  have hok := h.reqs r (by simp)
  have hrow : r.prefixIndices = r.row := hok.prefixIndices.eq_of_length hlen
  have hps := h.holds.pageSize
  have hspec := allocForExtend_spec (hps.symm ▸ cfg.pageSize_pos) (hps.symm ▸ hok.exact) hle
  unfold RadixCache.extendReq
  rw [hrow]
  obtain ⟨Q, hQ⟩ := h.extends hspec
  refine ⟨Q, ?_⟩
  generalize c.allocator.allocForExtend r.row.length seqLen (r.row.getLast?.getD (-1)) = res
    at hQ ⊢
  obtain ⟨_ | out, a⟩ := res
  · exact hQ
  · rwa [hrow] at hQ

theorem Owned.decodeReq :
    ∃ Q, Owned cfg hf (c.decodeReq r).1 ((c.decodeReq r).2 :: rest) nodes N Q := by
  have hok := h.reqs r (by simp)
  have hps := h.holds.pageSize
  have hspec := allocForDecode_spec (hps.symm ▸ cfg.pageSize_pos) (hps.symm ▸ hok.exact)
  unfold RadixCache.decodeReq
  obtain ⟨Q, hQ⟩ := h.extends hspec
  generalize c.allocator.allocForDecode (r.row.length + 1) (r.row.getLast?.getD (-1)) = res at hQ ⊢
  obtain ⟨_ | out, a⟩ := res
  · exact ⟨Q, hQ⟩
  · exact ⟨Q, hQ⟩

end

theorem Owned.evict [DecidableEq B] (h : Owned cfg hf c live nodes N P) (tie : List NodeId → Nat)
    (numTokens : Nat) : ∃ c' n nodes', c.evict cfg hf tie numTokens = .ok (c', n) ∧
      Owned cfg hf c' live nodes' N P := by
  cases hen : cfg.disable with
  | true => exact ⟨c, 0, nodes, by simp [RadixCache.evict, hen], h⟩
  | false =>
    obtain ⟨c', nodes', xs, n, hrun, hdel, -, -⟩ := evict_spec h.inv hen tie numTokens
    have hinv := hdel.inv h.inv
    refine ⟨c', n, nodes', hrun, hinv, ?_, hdel.holds h.holds, ?_, h.total⟩
    · simp [hen]
    · intro q hq
      have hmem := hinv.locked.held_mem q.lastNode (mem_map_of_mem hq)
      exact (h.reqs q hq).mono fun lq hlq => hdel.path h.inv.shape hlq hmem

theorem Owned.gains {a : Paged} (h : Owned cfg hf c live nodes N P)
    (hgain : Gains c.allocator a 0) : Owned cfg hf { c with allocator := a } live nodes N P := by
  have hholds := h.holds.gains hgain
  rw [add_zero] at hholds
  exact { h with inv := h.inv.of_allocator _, holds := hholds }

theorem owned_fresh [DecidableEq B] (c : RadixCache H B) (a : Paged)
    (hps : a.pageSize = cfg.pageSize) :
    Owned cfg hf { c.reset cfg with allocator := a.clear } [] {(c.reset cfg).tree.rootNode}
      a.numPages (arange 1 a.numPages : Multiset Int) := by
  have hinv : Inv cfg hf (c.reset cfg) {(c.reset cfg).tree.rootNode} [] := reset_spec c
  have hvalue : (c.reset cfg).tree.value (c.reset cfg).tree.rootNode = [] := by
    apply eq_nil_of_length_eq_zero
    rw [hinv.shape.value_len _ hinv.shape.root_mem]
    exact hinv.shape.root_key
  refine ⟨hinv.of_allocator _, fun _ => rfl, ⟨hps, rfl, sane_clear, ?_, ?_⟩, by simp, by simp⟩
  · intro n hn
    rw [mem_singleton.mp hn]
    rw [hvalue]
    exact .nil
  · rw [pages_clear, treePages, Finset.sum_singleton]
    rw [hvalue, pagesOf]
    simp

theorem Owned.flush [DecidableEq B] (h : Owned cfg hf c [] nodes N P) :
    Owned cfg hf (c.flush cfg) [] {(c.reset cfg).tree.rootNode} N (arange 1 N : Multiset Int) :=
  h.holds.numPages ▸ owned_fresh c c.allocator h.holds.pageSize

end Acts

end SparkInfer.Radix
