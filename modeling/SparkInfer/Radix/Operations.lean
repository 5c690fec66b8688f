import SparkInfer.Radix.Hashes
import SparkInfer.Radix.Locks
import Mathlib.Data.List.Lex
import Mathlib.Order.Lattice

/-!
# What the operations do

Every public operation of `RadixCache` succeeds on a well-formed cache and is a
sequence of three kinds of edits: splits, the attachment of one leaf, and
deletions of unlocked leaves.  Later modules argue about these edits only.
-/

namespace SparkInfer.Radix

open Lib Lib.CommonPrefix List Finset RadixCache RadixKey

variable {H B : Type} {cfg : Config} {hf : HashFns H B}
variable {c c' : RadixCache H B} {nodes nodes' : Finset NodeId} {held : List NodeId}
variable {n p x : NodeId} {ck : PyVal} {lp l : List (Atom × Int)} {key : RadixKey}
variable {w : List Atom} {value : List Int}
variable {xs : List NodeId} {tie : List NodeId → Nat} {heap : List (List Int × NodeId)}

structure Inv (cfg : Config) (hf : HashFns H B) (c : RadixCache H B) (nodes : Finset NodeId)
    (held : List NodeId) : Prop where
  shape : Shape cfg.pageSize c.tree.toSkeleton nodes
  sized : Sized c.tree nodes
  locked : Locked c.tree nodes held
  hashed : cfg.enableKvCacheEvents = true →
    Hashed hf cfg.pageSize c.tree.toSkeleton nodes c.kvEvents

theorem Splits.inv (hs : Splits cfg c nodes c' nodes') (h : Inv cfg hf c nodes held) :
    Inv cfg hf c' nodes' held := by
  induction hs with
  | refl => exact h
  | stats _ _ ih => exact { ih with }
  | split _ guard ih =>
    exact ⟨ih.shape.split cfg.pageSize_pos guard, ih.sized.splitNode ih.shape guard,
      ih.locked.splitNode ih.shape guard,
      fun hen => (ih.hashed hen).split ih.shape cfg.pageSize_pos guard⟩

/-! ## Matching -/

def alignedKey (cfg : Config) (key : RadixKey) : RadixKey :=
  ((key.maybeToBigramView cfg.isEagle none).1).pageAligned cfg.pageSize

theorem maybeToBigramView_fst (isEagle : Bool) (value : Option (List Int)) :
    (key.maybeToBigramView isEagle value).1 = (key.maybeToBigramView isEagle none).1 := by
  unfold maybeToBigramView
  split_ifs <;> rfl

theorem dvd_alignedKey : cfg.pageSize ∣ (alignedKey cfg key).len := by
  rw [alignedKey, len_pageAligned]
  exact dvd_floorTo _ _

theorem tagged_eq_nil (h : key.len = 0) : key.tagged = [] :=
  eq_nil_of_length_eq_zero (by simpa using h)

section

variable (h : Shape cfg.pageSize c.tree.toSkeleton nodes)
include h

theorem Shape.located_root : (c.tree.trie nodes).Located cfg.pageSize [] c.tree.rootNode [] :=
  ⟨Trie.path_root _, rfl, h.stuck_nil cfg.pageSize_pos⟩

theorem matchPrefixHelper_spec (hdvd : cfg.pageSize ∣ key.len) (hpos : 0 < key.len) :
    ∃ c' nodes' vs n l, c.matchPrefixHelper cfg c.tree.rootNode key = .ok (c', vs, n) ∧
      Splits cfg c nodes c' nodes' ∧ (c'.tree.trie nodes').Located cfg.pageSize key.tagged n l ∧
      vs.flatten = l.map Prod.snd := by
  have hck := childKey_eq key (Nat.le_of_dvd hpos hdvd)
  obtain ⟨c', nodes', vs, n, l, hrun, hsplits, hend, hvals⟩ :=
    matchLoop_spec (cfg.monotonic c.stats.ticks) (key.len + 1)
      (c := { c with
        stats := { c.stats with ticks := c.stats.ticks + 1 }.touch c.tree.rootNode
          (cfg.monotonic c.stats.ticks) }) [] h
      (Nat.lt_succ_self _) hdvd (fun _ => hck) (Trie.path_root _)
  refine ⟨c', nodes', vs, n, l, ?_, (Splits.stats .refl _).trans hsplits, hend.located, hvals⟩
  simp only [matchPrefixHelper, hck]
  exact hrun

theorem matchPrefix_spec (hen : cfg.disable = false) (key : RadixKey) :
    ∃ c' nodes' n l, c.matchPrefix cfg key = .ok (c', ⟨l.map Prod.snd, n⟩) ∧
      Splits cfg c nodes c' nodes' ∧
      (c'.tree.trie nodes').Located cfg.pageSize (alignedKey cfg key).tagged n l := by
  have hk : ((key.maybeToBigramView cfg.isEagle none).1).pageAligned cfg.pageSize =
      alignedKey cfg key := rfl
  by_cases hzero : (alignedKey cfg key).len = 0
  · refine ⟨c, nodes, c.tree.rootNode, [], ?_, .refl, ?_⟩
    · simp only [matchPrefix, hk]
      split_ifs <;> rfl
    · rw [tagged_eq_nil hzero]
      exact h.located_root
  have hview : ((key.maybeToBigramView cfg.isEagle none).1).len ≠ 0 := by
    intro hv
    apply hzero
    rw [alignedKey, len_pageAligned, hv]
    exact Nat.le_zero.mp (floorTo_le _ _)
  obtain ⟨c', nodes', vs, n, l, hrun, hsplits, hloc, hvals⟩ :=
    matchPrefixHelper_spec h (dvd_alignedKey) (Nat.pos_of_ne_zero hzero)
  refine ⟨c', nodes', n, l, ?_, hsplits, hloc⟩
  simp only [matchPrefix, hen, hk, Bool.false_or, beq_iff_eq, hview, hzero, if_false,
    hrun, ok_bind, pure_ok, hvals]

theorem Located.same_ns (hloc : (c.tree.trie nodes).Located cfg.pageSize key.tagged n l)
    (hne : n ≠ c.tree.rootNode) : (c.tree.key n).ns = key.ns := by
  have hmem := h.wf.mem_of_path hloc.path
  obtain ⟨p, lp, -, -, -, rfl⟩ := hloc.path.parent hne
  have hunits := h.units_ne_nil hmem hne
  obtain ⟨u, us, hu⟩ := exists_cons_of_ne_nil hunits
  have hatom : ((c.tree.key n).ns, u) ∈ Trie.keys (lp ++ (c.tree.trie nodes).label n) := by
    rw [Trie.keys, map_append]
    apply mem_append_right
    change _ ∈ Trie.keys (c.tree.label n)
    rw [h.keys_label hmem, tagged, hu]
    simp
  rw [hloc.key] at hatom
  have htag := mem_of_mem_take hatom
  rw [tagged, List.mem_map] at htag
  obtain ⟨v, -, hv⟩ := htag
  exact (congrArg Prod.fst hv).symm

theorem Shape.card_lt : nodes.card < c.tree.counter + 1 := by
  have hsub : nodes ⊆ range c.tree.counter :=
    fun n hn => Finset.mem_range.mpr (h.fresh n hn)
  have hcard := card_le_card hsub
  rw [card_range] at hcard
  omega

end

/-! ## Locks -/

section

variable (h : Inv cfg hf c nodes held)
include h

theorem Inv.of_tree {held' : List NodeId}
    (hskel : c'.tree.toSkeleton = c.tree.toSkeleton) (hev : c'.kvEvents = c.kvEvents)
    (hsized : Sized c'.tree nodes) (hlocked : Locked c'.tree nodes held') :
    Inv cfg hf c' nodes held' := by
  refine ⟨?_, hsized, hlocked, ?_⟩
  · rw [hskel]
    exact h.shape
  · rw [hskel, hev]
    exact h.hashed

theorem incLockRef_spec (hen : cfg.disable = false) (hn : n ∈ nodes) :
    ∃ t' delta, c.incLockRef cfg n = .ok ({ c with tree := t' }, delta) ∧
      t'.toSkeleton = c.tree.toSkeleton ∧ delta = t'.evictableSize - c.tree.evictableSize ∧
      Inv cfg hf { c with tree := t' } nodes (n :: held) := by
  obtain ⟨ns, hns⟩ := h.shape.wf.spine n hn
  obtain ⟨⟨t', delta⟩, hrun, hskel, hsized, hlock, hdelta⟩ :=
    incLockLoop_spec (c.tree.counter + 1) 0 h.sized hns (h.shape.spine_length hns)
  refine ⟨t', delta, ?_, hskel, by simpa using hdelta,
    h.of_tree hskel rfl hsized (h.locked.inc hn hns hskel hlock)⟩
  simp only [incLockRef, hen, Bool.false_eq_true, if_false, hrun, ok_bind, pure_ok]

theorem decLockRef_spec (hen : cfg.disable = false) (hn : n ∈ held) :
    ∃ t' delta, c.decLockRef cfg n = .ok ({ c with tree := t' }, delta) ∧
      t'.toSkeleton = c.tree.toSkeleton ∧ delta = t'.evictableSize - c.tree.evictableSize ∧
      Inv cfg hf { c with tree := t' } nodes (held.erase n) := by
  obtain ⟨ns, hns⟩ := h.shape.wf.spine n (h.locked.held_mem n hn)
  obtain ⟨⟨t', delta⟩, hrun, hskel, hsized, hlock, hdelta⟩ :=
    decLockLoop_spec (c.tree.counter + 1) 0 h.sized hns (h.shape.spine_length hns)
      (fun x hx => h.locked.pos_of_held hn hns hx)
  refine ⟨t', delta, ?_, hskel, by simpa using hdelta,
    h.of_tree hskel rfl hsized (h.locked.dec hn hns hskel hlock)⟩
  simp only [decLockRef, hen, Bool.false_eq_true, if_false, hrun, ok_bind, pure_ok]

/-! ## Edits -/

/-- What `evict` deletes: an unlocked node without children. -/
structure DeleteGuard (pageSize : Nat) (t : Tree) (nodes : Finset NodeId) (x p : NodeId)
    (ck : PyVal) (lp : List (Atom × Int)) : Prop where
  child : IsChild pageSize t.toSkeleton nodes p ck x
  leaf : (t.children x).keys = []
  unlocked : t.lockRef x = 0
  path : (t.trie nodes).Path p lp

/-- Without evictable leaves nothing is evictable: an unlocked node has an
unlocked leaf below it. -/
theorem Inv.evictable_zero (hempty : c.tree.evictableLeaves = ∅) : c.tree.evictableSize = 0 := by
  have hlocked : ∀ n ∈ nodes, n ≠ c.tree.rootNode → c.tree.lockRef n ≠ 0 := by
    intro n hn hne hzero
    obtain ⟨x, hx, hxne, hcov, hleaf⟩ := h.shape.wf.toRooted.exists_leaf hn hne
    have hle : (c.tree.trie nodes).toForest.cover held x ≤
        (c.tree.trie nodes).toForest.cover held n :=
      Forest.cover_mono fun _ _ hxh => hcov.trans hxh
    have hzerox : c.tree.lockRef x = 0 := by
      rw [h.locked.cover n hn hne] at hzero
      rw [h.locked.cover x hx hxne]
      omega
    have hmem : x ∈ c.tree.evictableLeaves :=
      (h.sized.leaves x).mpr ⟨hx, hxne, hzerox, (h.shape.children_empty_iff hx).mpr hleaf⟩
    rw [hempty] at hmem
    simp at hmem
  rw [h.sized.evictable]
  apply Finset.sum_eq_zero
  intro n hn
  obtain ⟨hne, hmem⟩ := mem_erase.mp hn
  simp [hlocked n hmem hne]

theorem Inv.deleteGuard (hx : x ∈ c.tree.evictableLeaves) :
    ∃ p ck lp, DeleteGuard cfg.pageSize c.tree nodes x p ck lp := by
  obtain ⟨hmem, hne, hlock, hleaf⟩ := (h.sized.leaves x).mp hx
  obtain ⟨p, hp, hpar⟩ := h.shape.parent_mem hmem hne
  obtain ⟨ck, hck⟩ := h.shape.childKey_ok hmem hne
  obtain ⟨lp, hlp⟩ := h.shape.wf.path_exists hp
  exact ⟨p, ck, lp, ⟨hmem, hne, hpar, hck⟩, hleaf, hlock, hlp⟩

omit h in
theorem DeleteGuard.parent_mem (g : DeleteGuard cfg.pageSize c.tree nodes x p ck lp)
    (h : Inv cfg hf c nodes held) : p ∈ nodes :=
  h.shape.mem_of_parent g.child.mem g.child.ne_root g.child.parent

theorem deleteLeaf_eq (g : DeleteGuard cfg.pageSize c.tree nodes x p ck lp) :
    deleteLeaf cfg c.tree x = .ok (c.tree.deleteLeaf x p ck) := by
  have hlook := (h.shape.lookup p (g.parent_mem h) ck x).mpr g.child
  simp only [deleteLeaf, g.child.childKey, g.child.parent, hlook, ok_bind, pure_ok, if_true]

end

theorem Hashed.reset {pageSize : Nat} {s : Skeleton} {r : Recorder H B}
    (hplain : r.hashValue s.counter = some []) (hevent : r.eventHashValue s.counter = none) :
    Hashed hf pageSize s.reset {s.reset.rootNode} r := by
  refine ⟨hplain, hevent, ?_, ?_⟩
  · exact fun n hn hne => absurd (Finset.mem_singleton.mp hn) hne
  · exact fun n hn hne => absurd (Finset.mem_singleton.mp hn) hne

variable [DecidableEq B]

structure Added (cfg : Config) (hf : HashFns H B) (c c' : RadixCache H B) (node : NodeId)
    (key : RadixKey) (value : List Int) (ck : PyVal) (lp : List (Atom × Int)) : Prop where
  tree : c'.tree = c.tree.addLeaf node key value ck
  kvEvents : c'.kvEvents = if cfg.enableKvCacheEvents then
      c.kvEvents.stored hf cfg.pageSize c.tree.toSkeleton node key lp
    else c.kvEvents.newNode c.tree.counter
  allocator : c'.allocator = c.allocator

def RadixCache.deleted (cfg : Config) (hf : HashFns H B) (c : RadixCache H B) (x p : NodeId)
    (ck : PyVal) (lp : List (Atom × Int)) : RadixCache H B :=
  { c with
    tree := c.tree.deleteLeaf x p ck
    allocator := c.allocator.freeSegment (c.tree.value x) 0
    kvEvents :=
      if cfg.enableKvCacheEvents then c.kvEvents.removed hf cfg.pageSize (c.tree.key x) lp
      else c.kvEvents }

theorem RadixCache.deleted_toSkeleton (c : RadixCache H B) (cfg : Config) (hf : HashFns H B)
    (x p : NodeId) (ck : PyVal) (lp : List (Atom × Int)) :
    (c.deleted cfg hf x p ck lp).tree.toSkeleton = c.tree.toSkeleton.removeChild p ck :=
  Tree.deleteLeaf_toSkeleton _ _ _ _

/-- A sequence of deletions; `xs` are the deleted nodes in order. -/
inductive Deletes (cfg : Config) (hf : HashFns H B) (c : RadixCache H B)
    (nodes : Finset NodeId) : RadixCache H B → Finset NodeId → List NodeId → Prop
  | refl : Deletes cfg hf c nodes c nodes []
  | delete {c' : RadixCache H B} {nodes' : Finset NodeId} {xs : List NodeId} {x p : NodeId}
      {ck : PyVal} {lp : List (Atom × Int)} (h : Deletes cfg hf c nodes c' nodes' xs)
      (guard : DeleteGuard cfg.pageSize c'.tree nodes' x p ck lp) :
      Deletes cfg hf c nodes (c'.deleted cfg hf x p ck lp) (nodes'.erase x) (xs ++ [x])

theorem Deletes.head (guard : DeleteGuard cfg.pageSize c.tree nodes x p ck lp)
    (h : Deletes cfg hf (c.deleted cfg hf x p ck lp) (nodes.erase x) c' nodes' xs) :
    Deletes cfg hf c nodes c' nodes' (x :: xs) := by
  induction h with
  | refl => exact .delete .refl guard
  | delete _ guard' ih => exact .delete ih guard'

theorem Added.inv {node : NodeId} (ha : Added cfg hf c c' node key value ck lp)
    (g : AddGuard cfg.pageSize c.tree.toSkeleton nodes node key value ck)
    (hlp : (c.tree.trie nodes).Path node lp) (h : Inv cfg hf c nodes held) :
    Inv cfg hf c' (insert c.tree.counter nodes) held := by
  have hskel : c'.tree.toSkeleton = c.tree.toSkeleton.addLeaf node key value ck := by
    rw [ha.tree, Tree.addLeaf_toSkeleton]
  refine ⟨?_, ?_, ?_, ?_⟩
  · rw [hskel]
    exact h.shape.add cfg.pageSize_pos g
  · rw [ha.tree]
    exact h.sized.addLeaf h.shape g.mem
  · rw [ha.tree]
    exact h.locked.addLeaf h.shape
  · intro hen
    rw [hskel, ha.kvEvents, if_pos hen]
    exact ((h.hashed hen).leaf hlp h.shape).of_queue rfl rfl

theorem DeleteGuard.inv (g : DeleteGuard cfg.pageSize c.tree nodes x p ck lp)
    (h : Inv cfg hf c nodes held) :
    Inv cfg hf (c.deleted cfg hf x p ck lp) (nodes.erase x) held := by
  have hskel := c.deleted_toSkeleton cfg hf x p ck lp
  refine ⟨?_, h.sized.deleteLeaf h.shape g.child g.unlocked,
    h.locked.deleteLeaf h.shape g.child g.leaf g.unlocked, ?_⟩
  · rw [hskel]
    exact h.shape.removeChild g.child g.leaf
  intro hen
  have hrec : (c.deleted cfg hf x p ck lp).kvEvents =
      c.kvEvents.removed hf cfg.pageSize (c.tree.key x) lp := by
    simp only [deleted, hen, if_true]
  rw [hskel, hrec]
  exact ((h.hashed hen).removeChild h.shape g.child g.leaf).of_queue rfl rfl

theorem Deletes.inv (hd : Deletes cfg hf c nodes c' nodes' xs) (h : Inv cfg hf c nodes held) :
    Inv cfg hf c' nodes' held := by
  induction hd with
  | refl => exact h
  | delete _ guard ih => exact guard.inv ih

/-! ## Insertion -/

def insertValue (cfg : Config) (key : RadixKey) (value : Option (List Int)) : List Int :=
  valueOrTokenIds value (alignedKey cfg key)

/-- Callers pass an index for every unit of the key. -/
def ValueFits (cfg : Config) (key : RadixKey) (value : Option (List Int)) : Prop :=
  ∀ v, value = some v → (alignedKey cfg key).len ≤ v.length

theorem length_insertValue {value : Option (List Int)} (hfit : ValueFits cfg key value) :
    (insertValue cfg key value).length = (alignedKey cfg key).len := by
  cases value with
  | some v =>
    have hle := hfit v rfl
    simp only [insertValue, valueOrTokenIds, length_take]
    omega
  | none =>
    have hraw := (alignedKey cfg key).rawLen_le
    have hlen : (alignedKey cfg key).len ≤ (alignedKey cfg key).rawLen := by
      unfold len
      split_ifs <;> omega
    simp only [insertValue, valueOrTokenIds, length_take]
    omega

theorem insertValue_eq (value : Option (List Int)) :
    valueOrTokenIds (key.maybeToBigramView cfg.isEagle value).2 (alignedKey cfg key) =
      insertValue cfg key value := by
  have hle : (alignedKey cfg key).len ≤ ((key.maybeToBigramView cfg.isEagle none).1).len := by
    rw [alignedKey, len_pageAligned]
    exact floorTo_le _ _
  cases value with
  | none =>
    have hnone : (key.maybeToBigramView cfg.isEagle none).2 = none := by
      unfold maybeToBigramView
      split_ifs <;> rfl
    rw [hnone]
    rfl
  | some v =>
    unfold maybeToBigramView at hle ⊢
    split_ifs at hle ⊢
    · simp only [Option.map_some, insertValue, valueOrTokenIds, take_take, Nat.min_eq_left hle]
    · rfl

/-- How `insert` ends: on the path found, or with a new leaf below it. -/
inductive InsertEnd (cfg : Config) (hf : HashFns H B) (c : RadixCache H B)
    (nodes : Finset NodeId) (w : List Atom) (value : List Int) (n : NodeId)
    (l : List (Atom × Int)) : RadixCache H B → Finset NodeId → NodeId → Prop
  | found (hlen : l.length = w.length) : InsertEnd cfg hf c nodes w value n l c nodes n
  | added {c' : RadixCache H B} {key : RadixKey} {ck : PyVal} (hlen : l.length < w.length)
      (hkey : key.tagged = w.drop l.length)
      (guard : AddGuard cfg.pageSize c.tree.toSkeleton nodes n key (value.drop l.length) ck)
      (hadd : Added cfg hf c c' n key (value.drop l.length) ck l) :
      InsertEnd cfg hf c nodes w value n l c' (insert c.tree.counter nodes) c.tree.counter

theorem addLeaf_spec {cur : RadixCache.InsertCursor}
    (priority : Int) (chunked : Bool) (h : Inv cfg hf c nodes held)
    (g : AddGuard cfg.pageSize c.tree.toSkeleton nodes cur.node cur.key cur.value cur.childKey)
    (hlp : (c.tree.trie nodes).Path cur.node lp) :
    ∃ c', c.addLeaf cfg hf cur priority chunked = .ok (c', c.tree.counter) ∧
      Added cfg hf c c' cur.node cur.key cur.value cur.childKey lp := by
  have hskel : (c.tree.addLeaf cur.node cur.key cur.value cur.childKey).toSkeleton =
      c.tree.toSkeleton.addLeaf cur.node cur.key cur.value cur.childKey :=
    Tree.addLeaf_toSkeleton _ _ _ _ _
  have hrec : (c.kvEvents.newNode c.tree.counter).recordStore hf
      (c.tree.addLeaf cur.node cur.key cur.value cur.childKey) cfg.pageSize
      cfg.enableKvCacheEvents c.tree.counter .gpu =
      .ok (if cfg.enableKvCacheEvents then
        c.kvEvents.stored hf cfg.pageSize c.tree.toSkeleton cur.node cur.key lp
        else c.kvEvents.newNode c.tree.counter) := by
    cases hen : cfg.enableKvCacheEvents with
    | false => rfl
    | true => exact recordStore_leaf hskel g hlp (h.hashed hen) h.shape cfg.pageSize_pos
  refine ⟨{ c with
    tree := c.tree.addLeaf cur.node cur.key cur.value cur.childKey
    stats := (c.stats.newNode cfg.monotonic c.tree.counter priority 0).incHitCount
      c.tree.counter chunked
    kvEvents := if cfg.enableKvCacheEvents then
      c.kvEvents.stored hf cfg.pageSize c.tree.toSkeleton cur.node cur.key lp
      else c.kvEvents.newNode c.tree.counter }, ?_, ⟨rfl, rfl, rfl⟩⟩
  simp [addLeaf, hrec]

theorem insertHelper_spec (h : Inv cfg hf c nodes held) (hdvd : cfg.pageSize ∣ key.len)
    (hval : value.length = key.len) (priority : Int) (chunked : Bool) :
    ∃ c₁ nodes₁ n l c' nodes' last,
      c.insertHelper cfg hf c.tree.rootNode key value priority chunked = .ok (c', l.length, last) ∧
      Splits cfg c nodes c₁ nodes₁ ∧ (c₁.tree.trie nodes₁).Located cfg.pageSize key.tagged n l ∧
      InsertEnd cfg hf c₁ nodes₁ key.tagged value n l c' nodes' last := by
  let c₀ : RadixCache H B := { c with
    stats := ({ c.stats with ticks := c.stats.ticks + 1 }.touch c.tree.rootNode
      (cfg.monotonic c.stats.ticks)).raisePriority c.tree.rootNode priority }
  by_cases hzero : key.len = 0
  · -- only the root is touched
    refine ⟨c₀, nodes, c.tree.rootNode, [], c₀, nodes, c.tree.rootNode, ?_,
      .stats .refl _, ?_, .found (by simp [hzero])⟩
    · simp only [insertHelper, hzero]
      rfl
    · rw [tagged_eq_nil hzero]
      exact h.shape.located_root
  obtain ⟨ck, hck⟩ : ∃ ck, key.childKey cfg.pageSize = .ok ck :=
    ⟨_, childKey_eq key (Nat.le_of_dvd (Nat.pos_of_ne_zero hzero) hdvd)⟩
  obtain ⟨c₁, nodes₁, cur, l, hrun, hsplits, hend, hkey, hvalue, htotal, hdone⟩ :=
    insertLoop_spec priority chunked (cfg.monotonic c.stats.ticks) (key.len + 1)
      (c := c₀) ⟨c.tree.rootNode, key, value, 0, ck⟩ h.shape (Nat.lt_succ_self _) hdvd
      (fun _ => hck) (Trie.path_root _)
  simp only [Nat.zero_add, c₀] at hrun hend hkey hvalue htotal
  have hsplits' : Splits cfg c nodes c₁ nodes₁ := (Splits.stats .refl _).trans hsplits
  have hinv := hsplits'.inv h
  have hlen : cur.key.len = key.len - l.length := by
    have hlen := congrArg length hkey
    simpa using hlen
  have hle : l.length ≤ key.len := by simpa using hend.length_le
  by_cases hrest : cur.key.len = 0
  · -- the whole key is in the tree
    refine ⟨c₁, nodes₁, cur.node, l, c₁, nodes₁, cur.node, ?_, hsplits', hend.located,
      .found (by simp; omega)⟩
    simp only [insertHelper, hzero, if_false, readClock, hck, ok_bind, pure_ok, hrun, hrest, if_true, htotal]
  obtain ⟨hcck, hlook⟩ := hdone (Nat.pos_of_ne_zero hrest)
  have hguard : AddGuard cfg.pageSize c₁.tree.toSkeleton nodes₁ cur.node cur.key cur.value
      cur.childKey := by
    refine ⟨hinv.shape.wf.mem_of_path hend.path, ?_, Nat.pos_of_ne_zero hrest, ?_, hcck, hlook, ?_⟩
    · rw [hlen]
      exact Nat.dvd_sub hdvd (hinv.shape.wf.dvd_path hend.located.path)
    · rw [hvalue, length_drop, hval, hlen]
    intro hne
    have hns := Located.same_ns hinv.shape hend.located hne
    have hcur := (of_tagged_drop hkey (Nat.pos_of_ne_zero hrest)).1
    rw [hns, hcur]
  obtain ⟨c', hadd, hadded⟩ := addLeaf_spec priority chunked hinv hguard hend.located.path
  rw [hvalue] at hguard hadded
  refine ⟨c₁, nodes₁, cur.node, l, c', _, c₁.tree.counter, ?_, hsplits', hend.located,
    .added (by simp; omega) hkey hguard hadded⟩
  simp only [insertHelper, hzero, if_false, readClock, hck, ok_bind, pure_ok, hrun, hrest, hadd, htotal]

/-- `insert` walks to the longest prefix of the key in the tree and files the
rest below it. -/
theorem insert_spec (h : Inv cfg hf c nodes held) (hen : cfg.disable = false) (key : RadixKey)
    (value : Option (List Int)) (priority : Int) (chunked : Bool) (hfit : ValueFits cfg key value) :
    ∃ c₁ nodes₁ n l c' nodes' last,
      c.insert cfg hf key value priority chunked = .ok (c', ⟨l.length, some last⟩) ∧
      Splits cfg c nodes c₁ nodes₁ ∧
      (c₁.tree.trie nodes₁).Located cfg.pageSize (alignedKey cfg key).tagged n l ∧
      InsertEnd cfg hf c₁ nodes₁ (alignedKey cfg key).tagged (insertValue cfg key value) n l
        c' nodes' last := by
  obtain ⟨c₁, nodes₁, n, l, c', nodes', last, hrun, hsplits, hloc, hend⟩ :=
    insertHelper_spec h (dvd_alignedKey) (length_insertValue hfit) priority chunked
  refine ⟨c₁, nodes₁, n, l, c', nodes', last, ?_, hsplits, hloc, hend⟩
  have hk : ((key.maybeToBigramView cfg.isEagle value).1).pageAligned cfg.pageSize =
      alignedKey cfg key := by
    rw [maybeToBigramView_fst]
    rfl
  simp only [RadixCache.insert, hen, Bool.false_eq_true, if_false, hk, insertValue_eq, hrun, ok_bind, pure_ok]

theorem InsertEnd.inv {last : NodeId}
    (he : InsertEnd cfg hf c nodes w value n l c' nodes' last) (h : Inv cfg hf c nodes held)
    (hl : (c.tree.trie nodes).Path n l) : Inv cfg hf c' nodes' held := by
  cases he with
  | found => exact h
  | added _ _ guard hadd => exact hadd.inv guard hl h

/-! ## Eviction -/

theorem heappop_none (h : heappop tie heap = none) : heap = [] := by
  by_contra hne
  -- a list of entries has a least one
  have hleast : ∃ x ∈ heap, ∀ y ∈ heap, ¬ y.1 < x.1 := by
    obtain ⟨x, hx, hmin⟩ := exists_min_image heap.toFinset (fun x => x.1)
      (toFinset_nonempty_iff heap |>.mpr hne)
    exact ⟨x, mem_toFinset.mp hx, fun y hy => not_lt.mpr (hmin y (mem_toFinset.mpr hy))⟩
  obtain ⟨x, hx, hmin⟩ := hleast
  unfold heappop at h
  simp only at h
  split at h
  · rename_i hget
    rw [getElem?_eq_none_iff] at hget
    have hmem : x ∈ heap.filter fun x => heap.all fun y => decide (¬ y.1 < x.1) := by
      rw [mem_filter]
      exact ⟨hx, by simpa using hmin⟩
    have hpos := length_pos_of_mem hmem
    have hlt := Nat.mod_lt (tie (heap.map Prod.snd)) hpos
    omega
  · simp at h

theorem heappop_some {rest : List (List Int × NodeId)} {x : List Int × NodeId}
    (h : heappop tie heap = some (x, rest)) : x ∈ heap ∧ rest = heap.erase x := by
  unfold heappop at h
  simp only at h
  split at h
  · simp at h
  · rename_i y hget
    obtain ⟨rfl, rfl⟩ := h
    exact ⟨mem_of_mem_filter (mem_of_getElem? hget), rfl⟩

structure HeapOk (t : Tree) (heap : List (List Int × NodeId)) : Prop where
  nodup : (heap.map Prod.snd).Nodup
  mem : ∀ n, n ∈ heap.map Prod.snd ↔ n ∈ t.evictableLeaves

theorem HeapOk.delete {t : Tree} {pr : List Int} (entry : List Int) (h : HeapOk t heap)
    (hx : (pr, x) ∈ heap) (hp : p ∉ t.evictableLeaves) (hnonneg : 0 ≤ t.lockRef p) :
    HeapOk (t.deleteLeaf x p ck)
      (if ((t.deleteLeaf x p ck).children p).keys = [] ∧ (t.deleteLeaf x p ck).lockRef p = 0 then
        heap.erase (pr, x) ++ [(entry, p)]
      else heap.erase (pr, x)) := by
  have hperm : (heap.map Prod.snd).Perm (x :: (heap.erase (pr, x)).map Prod.snd) :=
    (perm_cons_erase hx).map Prod.snd
  have hnodup := hperm.nodup_iff.mp h.nodup
  rw [nodup_cons] at hnodup
  have hmem : ∀ n, n ∈ (heap.erase (pr, x)).map Prod.snd ↔ n ∈ t.evictableLeaves ∧ n ≠ x := by
    intro n
    rw [← h.mem n, hperm.mem_iff, List.mem_cons]
    constructor
    · exact fun hn => ⟨.inr hn, fun hnx => hnodup.1 (hnx ▸ hn)⟩
    · rintro ⟨hn | hn, hnx⟩
      · exact absurd hn hnx
      · exact hn
  have hpnot : p ∉ (heap.erase (pr, x)).map Prod.snd := fun hin => hp ((hmem p).mp hin).1
  have hleaves : ∀ n, n ∈ (t.deleteLeaf x p ck).evictableLeaves ↔
      if n = p then ((t.deleteLeaf x p ck).children p).keys = [] ∧
        (t.deleteLeaf x p ck).lockRef p = 0
      else n ∈ t.evictableLeaves ∧ n ≠ x := by
    intro n
    have hchildren : (t.deleteLeaf x p ck).children = (t.removeChild p ck).children := by
      rw [Tree.deleteLeaf_toSkeleton]
    have hlock : (t.deleteLeaf x p ck).lockRef = t.lockRef := by simp [Tree.deleteLeaf]
    rw [hchildren, hlock, Tree.deleteLeaf, Tree.mem_updateLeafStatus]
    by_cases hnp : n = p
    · simp only [hnp]
      constructor
      · exact fun hn => ⟨hn.2, le_antisymm hn.1 hnonneg⟩
      · exact fun hn => ⟨hn.2.le, hn.1⟩
    · simp only [hnp, mem_erase]
      exact and_comm
  split_ifs with hcond
  · refine ⟨?_, ?_⟩
    · rw [map_append, nodup_append]
      refine ⟨hnodup.2, by simp, ?_⟩
      intro a ha b hb hab
      simp only [List.map_cons, map_nil, List.mem_singleton] at hb
      exact hpnot (hb ▸ hab ▸ ha)
    · intro n
      rw [hleaves n, map_append, mem_append, hmem n]
      by_cases hnp : n = p
      · rw [if_pos hnp]
        exact ⟨fun _ => hcond, fun _ => .inr (by simp [hnp])⟩
      · simp [hnp]
  · refine ⟨hnodup.2, ?_⟩
    intro n
    rw [hleaves n, hmem n]
    by_cases hnp : n = p
    · rw [if_pos hnp]
      exact ⟨fun hin => absurd (hnp ▸ hin.1) hp, fun hin => absurd hin hcond⟩
    · simp [hnp]

theorem evictLoop_spec (tie : List NodeId → Nat) (numTokens fuel : Nat) :
    ∀ {c : RadixCache H B} {nodes : Finset NodeId} {heap : List (List Int × NodeId)}
      (numEvicted : Nat), Inv cfg hf c nodes held → HeapOk c.tree heap → nodes.card < fuel →
      ∃ c' nodes' xs numEvicted',
        c.evictLoop cfg hf tie numTokens fuel heap numEvicted = .ok (c', numEvicted') ∧
        Deletes cfg hf c nodes c' nodes' xs ∧
        (numEvicted' : Int) - numEvicted = c.tree.evictableSize - c'.tree.evictableSize ∧
        (numTokens ≤ numEvicted' ∨ c'.tree.evictableLeaves = ∅) := by
  induction fuel with
  | zero =>
    omega
  | succ fuel ih =>
    intro c nodes heap numEvicted h hheap hfuel
    rw [evictLoop]
    by_cases hdone : numTokens ≤ numEvicted
    · rw [if_pos hdone]
      exact ⟨c, nodes, [], numEvicted, rfl, .refl, by omega, .inl hdone⟩
    rw [if_neg hdone]
    cases hpop : heappop tie heap with
    | none =>
      have hnil := heappop_none hpop
      refine ⟨c, nodes, [], numEvicted, rfl, .refl, by omega, .inr ?_⟩
      ext n
      rw [← hheap.mem n, hnil]
      simp
    | some popped =>
      obtain ⟨⟨pr, x⟩, rest⟩ := popped
      obtain ⟨hx, rfl⟩ := heappop_some hpop
      have hxleaf : x ∈ c.tree.evictableLeaves := (hheap.mem x).mp (mem_map.mpr ⟨_, hx, rfl⟩)
      obtain ⟨p, ck, lp, g⟩ := h.deleteGuard hxleaf
      have hp := g.parent_mem h
      -- the parent still has a child, so it is not in the heap yet
      have hpleaf : p ∉ c.tree.evictableLeaves := by
        intro hin
        have hempty := ((h.sized.leaves p).mp hin).2.2.2
        exact g.child.ne_root ((h.shape.children_empty_iff hp).mp hempty x g.child.mem
          g.child.parent)
      have hkey : (c.tree.deleteLeaf x p ck).key x = c.tree.key x := by
        simp [Skeleton.removeChild]
      have hparent : (c.tree.deleteLeaf x p ck).parent x = some p := by
        have hpar := g.child.parent
        simp [Skeleton.removeChild, hpar]
      have hrec : c.kvEvents.recordRemove hf (c.tree.deleteLeaf x p ck) cfg.pageSize
          cfg.enableKvCacheEvents x .gpu =
          .ok (if cfg.enableKvCacheEvents then
            c.kvEvents.removed hf cfg.pageSize (c.tree.key x) lp else c.kvEvents) := by
        cases hen : cfg.enableKvCacheEvents with
        | false => rfl
        | true =>
          exact recordRemove_eq hkey (h.hashed hen) h.shape cfg.pageSize_pos g.child.mem
            g.child.ne_root g.child.parent g.path
      have hcard : (nodes.erase x).card < fuel := by
        have := card_erase_lt_of_mem g.child.mem
        omega
      obtain ⟨c', nodes', xs, numEvicted', hrun, hdel, hsize, hend⟩ :=
        ih (numEvicted + (c.tree.value x).length) (g.inv h)
          (hheap.delete (heapEntry cfg
            { c with
              tree := c.tree.deleteLeaf x p ck
              allocator := c.allocator.freeSegment (c.tree.value x) 0 } p).1
            hx hpleaf (h.sized.lock_nonneg p hp)) hcard
      refine ⟨c', nodes', x :: xs, numEvicted', ?_, ?_, ?_, hend⟩
      · simp only [deleteLeaf_eq h g, hparent, hrec, ok_bind]
        exact hrun
      · exact Deletes.head g hdel
      have hdeleted : (c.deleted cfg hf x p ck lp).tree.evictableSize =
          c.tree.evictableSize - (c.tree.key x).len := by
        simp [deleted, Tree.deleteLeaf]
      have hlen := h.shape.value_len x g.child.mem
      omega

/-- `evict` deletes unlocked leaves only, and stops early only when none is left. -/
theorem evict_spec (h : Inv cfg hf c nodes held) (hen : cfg.disable = false)
    (tie : List NodeId → Nat) (numTokens : Nat) :
    ∃ c' nodes' xs numEvicted, c.evict cfg hf tie numTokens = .ok (c', numEvicted) ∧
      Deletes cfg hf c nodes c' nodes' xs ∧
      (numEvicted : Int) = c.tree.evictableSize - c'.tree.evictableSize ∧
      (numTokens ≤ numEvicted ∨ c'.tree.evictableLeaves = ∅) := by
  have hsnd : ((c.tree.evictableLeaves.sort (· ≤ ·)).map (heapEntry cfg c)).map
      Prod.snd = c.tree.evictableLeaves.sort (· ≤ ·) := by
    rw [List.map_map]
    exact map_id'' (fun _ => rfl) _
  have hheap : HeapOk c.tree
      ((c.tree.evictableLeaves.sort (· ≤ ·)).map (heapEntry cfg c)) := by
    refine ⟨?_, ?_⟩
    · rw [hsnd]
      exact sort_nodup _ _
    · intro n
      rw [hsnd, mem_sort]
  obtain ⟨c', nodes', xs, numEvicted, hrun, hdel, hsize, hend⟩ :=
    evictLoop_spec tie numTokens (c.tree.counter + 1) 0 h hheap h.shape.card_lt
  refine ⟨c', nodes', xs, numEvicted, ?_, hdel, by simpa using hsize, hend⟩
  simp only [evict, hen]
  exact hrun

/-! ## Starting over -/

theorem reset_spec (c : RadixCache H B) :
    Inv cfg hf (c.reset cfg) {(c.reset cfg).tree.rootNode} [] := by
  refine ⟨Shape.reset _ _, Sized.reset _, Locked.reset _, fun hen => Hashed.reset ?_ ?_⟩
  · simp [reset, Recorder.recordAllCleared, hen]
  · simp [reset, Recorder.recordAllCleared, hen, Recorder.newNode]

end SparkInfer.Radix
