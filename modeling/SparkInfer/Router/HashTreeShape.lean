import SparkInfer.Lib.Index
import SparkInfer.Router.HashTree

/-!
# The structure of the hash tree

The arena is a tree: a node's parent has it as a child and the other way round, and
the reverse index has exactly the nodes below the root.  What removes nodes only
ever takes workers away and drops nodes without workers; `Trim` says so once for
all of it, and `Marked` says what one step of an insertion does.
-/

namespace SparkInfer.Router

open Lib Finmap Option Finset

variable {keep keep' : NodeId → KvWorkerId → Prop} {f : Node → Node} {w : KvWorkerId}

namespace TreeState

variable {s s' s'' : TreeState} {id i p : NodeId} {n : Node} {h : BlockHash}

def indexed (s : TreeState) (h : BlockHash) : Finset NodeId := (s.byHash.lookup h).getD ∅

structure Linked (s : TreeState) : Prop where
  root : ∃ r, s.nodes.lookup rootId = some r ∧ r.parent = none
  up : ∀ {id n}, s.nodes.lookup id = some n → id ≠ rootId → ∃ p pn, n.parent = some p ∧
    s.nodes.lookup p = some pn ∧ pn.children.lookup n.blockHash = some id ∧ p < id
  down : ∀ {p pn h id}, s.nodes.lookup p = some pn → pn.children.lookup h = some id →
    ∃ n, s.nodes.lookup id = some n ∧ n.parent = some p ∧ n.blockHash = h
  index : ∀ h id, id ∈ s.indexed h ↔ id ≠ rootId ∧ ∃ n, s.nodes.lookup id = some n ∧ n.blockHash = h
  index_ne : ∀ h, s.byHash.lookup h ≠ some ∅
  fresh : ∀ {id n}, s.nodes.lookup id = some n → id < s.nextId

/-- Node `i` holds the block `h` below `q`. -/
def Holds (s : TreeState) (i : NodeId) (h : BlockHash) (q : Option NodeId) : Prop :=
  ∃ n, s.nodes.lookup i = some n ∧ n.blockHash = h ∧ n.parent = q

/-- Node `p` lists `i` as its child for the block `h`. -/
def Lists (s : TreeState) (p : NodeId) (h : BlockHash) (i : NodeId) : Prop :=
  ∃ pn, s.nodes.lookup p = some pn ∧ pn.children.lookup h = some i

/-- An edit that drops the nodes outside `keep` and links those of `new`. -/
theorem Linked.edit (hs : s.Linked) (keep : NodeId → Prop) (new : NodeId → BlockHash → NodeId → Prop)
    (hholds : ∀ i h q, s'.Holds i h q ↔ keep i ∧ s.Holds i h q ∨ ∃ p, q = some p ∧ new i h p)
    (hlists : ∀ p h i, s'.Lists p h i ↔ keep i ∧ s.Lists p h i ∨ new i h p)
    (hindex : ∀ h i, i ∈ s'.indexed h ↔ keep i ∧ i ∈ s.indexed h ∨ ∃ p, new i h p)
    (hindex_ne : ∀ h, s'.byHash.lookup h ≠ some ∅) (hnext : s.nextId ≤ s'.nextId)
    (hroot : keep rootId) (hnew : ∀ {i h p}, new i h p → p < i ∧ i < s'.nextId) : s'.Linked where
  root := by
    obtain ⟨r, hr, hnone⟩ := hs.root
    obtain ⟨r', hr', -, hnone'⟩ := (hholds _ _ _).mpr (.inl ⟨hroot, r, hr, rfl, hnone⟩)
    exact ⟨r', hr', hnone'⟩
  up {i n} hn hne := by
    obtain ⟨hkeep, n₀, hn₀, hhash, hpar⟩ | ⟨p, hp, hlink⟩ := (hholds i _ _).mp ⟨n, hn, rfl, rfl⟩
    · obtain ⟨p, pn, hp, hpn, hchild, hlt⟩ := hs.up hn₀ hne
      obtain ⟨pn', hpn', hchild'⟩ := (hlists p _ i).mpr (.inl ⟨hkeep, pn, hpn, hchild⟩)
      exact ⟨p, pn', hpar.symm.trans hp, hpn', hhash ▸ hchild', hlt⟩
    · obtain ⟨pn, hpn, hchild⟩ := (hlists p _ i).mpr (.inr hlink)
      exact ⟨p, pn, hp, hpn, hchild, (hnew hlink).1⟩
  down {p pn h i} hpn hchild := by
    have hholds' : s'.Holds i h (some p) := by
      rw [hholds]
      obtain ⟨hkeep, pn₀, hpn₀, hchild₀⟩ | hlink := (hlists p h i).mp ⟨pn, hpn, hchild⟩
      · obtain ⟨n, hn, hpar, hhash⟩ := hs.down hpn₀ hchild₀
        exact .inl ⟨hkeep, n, hn, hhash, hpar⟩
      · exact .inr ⟨p, rfl, hlink⟩
    obtain ⟨n, hn, hhash, hpar⟩ := hholds'
    exact ⟨n, hn, hpar, hhash⟩
  index h i := by
    rw [hindex, hs.index]
    constructor
    · rintro (⟨hkeep, hne, n, hn, rfl⟩ | ⟨p, hlink⟩)
      · obtain ⟨n', hn', hhash, -⟩ := (hholds i _ _).mpr (.inl ⟨hkeep, n, hn, rfl, rfl⟩)
        exact ⟨hne, n', hn', hhash⟩
      · obtain ⟨n', hn', hhash, -⟩ := (hholds i h _).mpr (.inr ⟨p, rfl, hlink⟩)
        exact ⟨((Nat.zero_le p).trans_lt (hnew hlink).1).ne', n', hn', hhash⟩
    · rintro ⟨hne, n', hn', rfl⟩
      obtain ⟨hkeep, n, hn, hhash, -⟩ | ⟨p, -, hlink⟩ := (hholds i _ _).mp ⟨n', hn', rfl, rfl⟩
      · exact .inl ⟨hkeep, hne, n, hn, hhash⟩
      · exact .inr ⟨p, hlink⟩
  index_ne := hindex_ne
  fresh {i n} hn := by
    obtain ⟨-, n₀, hn₀, -⟩ | ⟨p, -, hlink⟩ := (hholds i _ _).mp ⟨n, hn, rfl, rfl⟩
    · exact (hs.fresh hn₀).trans_le hnext
    · exact (hnew hlink).2

def Loose (s : TreeState) (id : NodeId) : Prop :=
  id ≠ rootId ∧ ∃ n, s.nodes.lookup id = some n ∧ n.prunable = true

/-- What holds between two operations. -/
structure Tidy (s : TreeState) : Prop extends s.Linked where
  tidy : ∀ id, ¬s.Loose id

/-- `s'` is `s` with the workers that `keep` rejects taken away and some of the
nodes that are left without a worker dropped. -/
structure Trim (keep : NodeId → KvWorkerId → Prop) (s s' : TreeState) : Prop where
  came : ∀ {id n'}, s'.nodes.lookup id = some n' → ∃ n, s.nodes.lookup id = some n ∧
    n'.blockHash = n.blockHash ∧ n'.parent = n.parent ∧
    ∀ w, w ∈ n'.workers ↔ w ∈ n.workers ∧ keep id w
  stays : ∀ {id n w}, s.nodes.lookup id = some n → w ∈ n.workers → keep id w →
    ∃ n', s'.nodes.lookup id = some n'

theorem Trim.trans (h : Trim keep s s') (h' : Trim keep' s' s'') :
    Trim (fun i w => keep i w ∧ keep' i w) s s'' where
  came hn := by
    obtain ⟨n', hn', hhash', hpar', hw'⟩ := h'.came hn
    obtain ⟨n, hn, hhash, hpar, hw⟩ := h.came hn'
    refine ⟨n, hn, hhash'.trans hhash, hpar'.trans hpar, fun w => ?_⟩
    rw [hw', hw, and_assoc]
  stays hn hw hkeep := by
    obtain ⟨n', hn'⟩ := h.stays hn hw hkeep.1
    obtain ⟨n₀, hn₀, -, -, hiff⟩ := h.came hn'
    cases hn₀.symm.trans hn
    exact h'.stays hn' ((hiff _).mpr ⟨hw, hkeep.1⟩) hkeep.2

theorem Trim.congr (h : Trim keep s s') (hk : ∀ i w, keep i w ↔ keep' i w) : Trim keep' s s' := by
  obtain rfl : keep = keep' := funext₂ fun i w => propext (hk i w)
  exact h

theorem Trim.refl (s : TreeState) : Trim (fun _ _ => True) s s where
  came hn := ⟨_, hn, rfl, rfl, by simp⟩
  stays hn _ _ := ⟨_, hn⟩

section Modify

@[simp] theorem lookup_modify : (s.modify id f).nodes.lookup i =
      if i = id then (s.nodes.lookup i).map f else s.nodes.lookup i := by
  unfold modify
  by_cases hi : i = id
  · subst hi
    cases hn : s.nodes.lookup i <;> simp [hn]
  · cases hn : s.nodes.lookup id <;> simp [hi]

@[simp] theorem byHash_modify : (s.modify id f).byHash = s.byHash := by
  unfold modify
  split <;> rfl

@[simp] theorem nextId_modify : (s.modify id f).nextId = s.nextId := by
  unfold modify
  split <;> rfl

@[simp] theorem keys_modify : (s.modify id f).nodes.keys = s.nodes.keys := by
  ext i
  rw [mem_keys, mem_keys, ← lookup_isSome, ← lookup_isSome]
  rw [lookup_modify]
  split <;> simp

def KeepsLinks (f : Node → Node) : Prop :=
  ∀ n, (f n).blockHash = n.blockHash ∧ (f n).parent = n.parent ∧ (f n).children = n.children

theorem Linked.modify (hs : s.Linked) (hf : KeepsLinks f) : (s.modify id f).Linked := by
  have hholds : ∀ i h q, (s.modify id f).Holds i h q ↔ s.Holds i h q := by
    intro i h q
    unfold Holds
    rw [lookup_modify]
    split_ifs
    · simp [(hf _).1, (hf _).2.1]
    · rfl
  have hlists : ∀ p h i, (s.modify id f).Lists p h i ↔ s.Lists p h i := by
    intro p h i
    unfold Lists
    rw [lookup_modify]
    split_ifs
    · simp [(hf _).2.2]
    · rfl
  exact hs.edit (fun _ => True) (fun _ _ _ => False) (by simp [hholds]) (by simp [hlists])
    (by simp [indexed]) (by simpa using hs.index_ne) (by simp) trivial False.elim

theorem Loose.of_modify (h : (s.modify id f).Loose i) (hne : i ≠ id) : s.Loose i := by
  obtain ⟨hroot, n, hn, hprune⟩ := h
  rw [lookup_modify, if_neg hne] at hn
  exact ⟨hroot, n, hn, hprune⟩

theorem trim_modify {keep : KvWorkerId → Prop} (hf : KeepsLinks f)
    (hw : ∀ n w, w ∈ (f n).workers ↔ w ∈ n.workers ∧ keep w) :
    Trim (fun i w => i = id → keep w) s (s.modify id f) where
  came hn := by
    rw [lookup_modify] at hn
    split_ifs at hn with hi
    · obtain ⟨n₀, hn₀, rfl⟩ := map_eq_some_iff.mp hn
      exact ⟨n₀, hn₀, (hf n₀).1, (hf n₀).2.1, by simp [hw, hi]⟩
    · exact ⟨_, hn, rfl, rfl, by simp [hi]⟩
  stays hn _ _ := by
    rw [lookup_modify, hn]
    split <;> exact ⟨_, rfl⟩

end Modify

section Detach

theorem nodes_detach : (s.detach id p h).nodes =
      (s.modify p fun n => { n with children := n.children.erase h }).nodes.erase id := by
  unfold detach
  dsimp only
  split
  · rfl
  · split <;> rfl

theorem nextId_detach : (s.detach id p h).nextId = s.nextId := by
  unfold detach
  dsimp only
  split
  · exact nextId_modify
  · split <;> exact nextId_modify

theorem listed_detach (id p : NodeId) (h : BlockHash) (hs : ∀ h, s.byHash.lookup h ≠ some ∅) :
    Listed (s.detach id p h).byHash.lookup fun h' i => i ∈ s.indexed h' ∧ ¬(h' = h ∧ i = id) := by
  have hold : Listed s.byHash.lookup fun h i => i ∈ s.indexed h := fun h => ⟨fun _ => .rfl, hs h⟩
  unfold detach
  cases hset : s.byHash.lookup h with
  | none =>
    simp only [byHash_modify, hset]
    exact hold.erase (fun _ _ => rfl) (fun _ _ => .rfl) (by simp [hset])
  | some set =>
    simp only [byHash_modify, hset]
    refine hold.erase (fun h' hh => ?_) (fun _ _ => .rfl) ?_ <;> split_ifs <;> simp_all

theorem lookup_detach_of_ne (hi : i ≠ id) : (s.detach id p h).nodes.lookup i =
    if i = p then (s.nodes.lookup i).map fun n => { n with children := n.children.erase h }
    else s.nodes.lookup i := by
  rw [nodes_detach, lookup_erase_ne hi, lookup_modify]

@[simp] theorem lookup_detach_self : (s.detach id p h).nodes.lookup id = none := by
  rw [nodes_detach, lookup_erase]

theorem card_detach (hn : s.nodes.lookup id = some n) :
    (s.detach id p h).nodes.keys.card + 1 = s.nodes.keys.card := by
  rw [nodes_detach, keys_erase, keys_modify]
  exact card_erase_add_one (mem_keys.mpr (mem_of_lookup_eq_some hn))

theorem lookup_detach_of (hn : (s.detach id p h).nodes.lookup i = some n) : i ≠ id ∧
    ∃ n₀, s.nodes.lookup i = some n₀ ∧ n.blockHash = n₀.blockHash ∧ n.parent = n₀.parent ∧
      n.workers = n₀.workers ∧ n.children = if i = p then n₀.children.erase h else n₀.children := by
  have hi : i ≠ id := by
    rintro rfl
    cases lookup_detach_self.symm.trans hn
  rw [lookup_detach_of_ne hi] at hn
  refine ⟨hi, ?_⟩
  split_ifs at hn with hip
  · obtain ⟨n₀, hn₀, rfl⟩ := map_eq_some_iff.mp hn
    exact ⟨n₀, hn₀, rfl, rfl, rfl, (if_pos hip).symm⟩
  · exact ⟨n, hn, rfl, rfl, rfl, (if_neg hip).symm⟩

variable (hs : s.Linked) (hn : s.nodes.lookup id = some n) (hp : n.parent = some p)
include hs hn hp

omit hn in
theorem Linked.ne_root_of_parent (hn : s.nodes.lookup id = some n) : id ≠ rootId := by
  rintro rfl
  obtain ⟨r, hr, hnone⟩ := hs.root
  cases hr.symm.trans hn
  cases hnone.symm.trans hp

theorem Linked.parent_link : ∃ pn, s.nodes.lookup p = some pn ∧
    pn.children.lookup n.blockHash = some id ∧ p < id := by
  obtain ⟨p', pn, hp', hpn, hchild, hlt⟩ := hs.up hn (hs.ne_root_of_parent hp hn)
  cases hp'.symm.trans hp
  exact ⟨pn, hpn, hchild, hlt⟩

theorem Linked.detach (hleaf : n.children = ∅) : (s.detach id p n.blockHash).Linked := by
  obtain ⟨pn, hpn, hlink, -⟩ := hs.parent_link hn hp
  have hholds : ∀ i h q, (s.detach id p n.blockHash).Holds i h q ↔ i ≠ id ∧ s.Holds i h q := by
    intro i h q
    unfold Holds
    by_cases hi : i = id
    · subst hi
      simp
    rw [lookup_detach_of_ne hi]
    split_ifs <;> simp [hi]
  -- the node is listed in its own place only
  have hown : ∀ {q h}, s.Lists q h id → q = p ∧ h = n.blockHash := by
    rintro q h ⟨qn, hqn, hchild⟩
    obtain ⟨m, hm, hmp, hmh⟩ := hs.down hqn hchild
    cases hm.symm.trans hn
    exact ⟨some.inj (hmp.symm.trans hp), hmh.symm⟩
  have hlists : ∀ q h i, (s.detach id p n.blockHash).Lists q h i ↔ i ≠ id ∧ s.Lists q h i := by
    intro q h i
    by_cases hq : q = id
    · subst hq
      simp [Lists, hn, hleaf]
    have haway : ¬(q = p ∧ h = n.blockHash) →
        ((s.detach id p n.blockHash).Lists q h i ↔ s.Lists q h i) := by
      intro hne
      unfold Lists
      rw [lookup_detach_of_ne hq]
      split_ifs with hqp
      · have hh : h ≠ n.blockHash := fun hh => hne ⟨hqp, hh⟩
        simp [lookup_erase_ne hh]
      · rfl
    by_cases hplace : q = p ∧ h = n.blockHash
    · obtain ⟨rfl, rfl⟩ := hplace
      simp [Lists, lookup_detach_of_ne hq, hpn, hlink, eq_comm]
    · rw [haway hplace]
      refine (and_iff_right_of_imp ?_).symm
      rintro hold rfl
      exact hplace (hown hold)
  have hlisted := listed_detach id p n.blockHash hs.index_ne
  refine hs.edit (· ≠ id) (fun _ _ _ => False) (by simpa using hholds) (by simpa using hlists) ?_
    (fun h => (hlisted h).2) nextId_detach.ge (hs.ne_root_of_parent hp hn).symm False.elim
  intro h i
  have hhash : i ∈ s.indexed h → i = id → h = n.blockHash := by
    rintro hi rfl
    obtain ⟨-, m, hm, hmh⟩ := (hs.index h i).mp hi
    cases hm.symm.trans hn
    exact hmh.symm
  rw [indexed, (hlisted h).1]
  tauto

omit hs hp in
theorem trim_detach (hw : n.workers = ∅) :
    Trim (fun _ _ => True) s (s.detach id p n.blockHash) where
  came hm := by
    obtain ⟨-, m₀, hm₀, hhash, hpar, hwork, -⟩ := lookup_detach_of hm
    exact ⟨m₀, hm₀, hhash, hpar, by simp [hwork]⟩
  stays {i m w} hm hmw _ := by
    have hi : i ≠ id := by
      rintro rfl
      cases hm.symm.trans hn
      rw [hw] at hmw
      cases hmw
    rw [lookup_detach_of_ne hi, hm]
    split <;> exact ⟨_, rfl⟩

omit hs hn hp in
theorem Loose.of_detach (hl : (s.detach id p h).Loose i) (hip : i ≠ p) : s.Loose i ∧ i ≠ id := by
  obtain ⟨hroot, m, hm, hprune⟩ := hl
  obtain ⟨hi, m₀, hm₀, -, -, hwork, hchildren⟩ := lookup_detach_of hm
  rw [if_neg hip] at hchildren
  refine ⟨⟨hroot, m₀, hm₀, ?_⟩, hi⟩
  rwa [Node.prunable, hwork, hchildren] at hprune

end Detach

section Prune

structure Pruned (s : TreeState) (start : NodeId) (s' : TreeState) : Prop where
  linked : s'.Linked
  trim : Trim (fun _ _ => True) s s'
  loose : ∀ {i}, s'.Loose i → s.Loose i ∧ i ≠ start

theorem Pruned.refl (hs : s.Linked) (hid : ¬s.Loose id) : Pruned s id s where
  linked := hs
  trim := .refl s
  loose hi := ⟨hi, fun heq => hid (heq ▸ hi)⟩

theorem prunable_iff : n.prunable = true ↔ n.workers = ∅ ∧ n.children = ∅ := by
  simp [Node.prunable]

variable (hs : s.Linked)
include hs

theorem Linked.card_pos : 0 < s.nodes.keys.card := by
  obtain ⟨r, hr, -⟩ := hs.root
  exact Finset.card_pos.mpr ⟨rootId, mem_keys.mpr (mem_of_lookup_eq_some hr)⟩

/-- By induction on the fuel: each iteration drops a node, and the only node it can
leave loose is the one that the next iteration starts from. -/
theorem Linked.pruneLoop {fuel : ℕ} (hfuel : s.nodes.keys.card ≤ fuel) :
    Pruned s id (pruneLoop fuel s id) := by
  induction fuel generalizing s id with
  | zero =>
    have := hs.card_pos
    omega
  | succ fuel ih =>
    rw [pruneLoop]
    split_ifs with hroot
    · exact .refl hs fun hl => hl.1 hroot
    split
    · rename_i hnone
      refine .refl hs fun ⟨_, n, hn, _⟩ => ?_
      cases hn.symm.trans hnone
    rename_i n hn
    split
    · rename_i hpar
      obtain ⟨p, -, hp, -⟩ := hs.up hn ‹_›
      cases hpar.symm.trans hp
    rename_i p hp
    split
    swap
    · rename_i hprune
      refine .refl hs fun ⟨_, m, hm, hmp⟩ => ?_
      cases hm.symm.trans hn
      exact hprune hmp
    rename_i hprune
    obtain ⟨hwork, hleaf⟩ := prunable_iff.mp hprune
    have hlinked := hs.detach hn hp hleaf
    have htrim := trim_detach (p := p) hn hwork
    have hcard := card_detach (p := p) (h := n.blockHash) hn
    have hstop (hl : ¬(s.detach id p n.blockHash).Loose p) :
        Pruned s id (s.detach id p n.blockHash) :=
      ⟨hlinked, htrim, fun hi => hi.of_detach fun heq => hl (heq ▸ hi)⟩
    dsimp only
    split
    · rename_i hnone
      refine hstop fun ⟨_, m, hm, _⟩ => ?_
      cases hm.symm.trans hnone
    rename_i pn hpn
    split_ifs with hnot
    · have hrec : Pruned _ p (pruneLoop fuel _ p) := ih hlinked (by omega)
      refine ⟨hrec.linked, (htrim.trans hrec.trim).congr (by simp), fun hi => ?_⟩
      obtain ⟨hi, hip⟩ := hrec.loose hi
      exact hi.of_detach hip
    · refine hstop fun ⟨hroot, m, hm, hmp⟩ => hnot ⟨hroot, ?_⟩
      cases hm.symm.trans hpn
      exact hmp

theorem Linked.pruneCascade : Pruned s id (s.pruneCascade id) :=
  hs.pruneLoop le_rfl

theorem Linked.pruneIfEmpty : Pruned s id (s.pruneIfEmpty id) := by
  unfold TreeState.pruneIfEmpty
  split_ifs with hany
  · exact hs.pruneCascade
  · refine .refl hs fun ⟨_, n, hn, hprune⟩ => hany ?_
    rwa [hn]

theorem Linked.pruneIfPresent : Pruned s id (s.pruneIfPresent id) := by
  unfold TreeState.pruneIfPresent
  split_ifs with hmem
  · exact hs.pruneCascade
  · exact .refl hs fun ⟨_, n, hn, _⟩ => hmem (mem_of_lookup_eq_some hn)

end Prune

section Remove

theorem keepsLinks_erase : KeepsLinks fun n => { n with workers := n.workers.erase w } :=
  fun _ => ⟨rfl, rfl, rfl⟩

theorem trim_erase : Trim (fun i w' => i = id → w' ≠ w) s
    (s.modify id fun n => { n with workers := n.workers.erase w }) :=
  trim_modify keepsLinks_erase fun n w' => by simp [and_comm]

theorem Tidy.pruned {s₀ : TreeState} (hloose : ∀ i, s.Loose i → i = id) (h : Pruned s id s₀) :
    s₀.Tidy := by
  refine ⟨h.linked, fun i hi => ?_⟩
  obtain ⟨hi, hne⟩ := h.loose hi
  exact hne (hloose i hi)

theorem Tidy.loose_modify (hs : s.Tidy) (hi : (s.modify id f).Loose i) : i = id := by
  by_contra hne
  exact hs.tidy i (hi.of_modify hne)

theorem Tidy.removeOne (hs : s.Tidy) (w : KvWorkerId) (id : NodeId) : (s.removeOne w id).Tidy ∧
    Trim (fun i w' => i = id → w' ≠ w) s (s.removeOne w id) := by
  have hpruned : Pruned _ id (s.removeOne w id) := (hs.toLinked.modify keepsLinks_erase).pruneIfEmpty
  refine ⟨.pruned (fun i hi => hs.loose_modify hi) hpruned, ?_⟩
  exact (trim_erase.trans hpruned.trim).congr (by simp)

theorem Tidy.removeAll (hs : s.Tidy) (ids : List NodeId) : (ids.foldl (TreeState.removeOne w) s).Tidy ∧
    Trim (fun i w' => i ∈ ids → w' ≠ w) s (ids.foldl (TreeState.removeOne w) s) := by
  induction ids generalizing s with
  | nil => exact ⟨hs, (Trim.refl s).congr (by simp)⟩
  | cons id ids ih =>
    obtain ⟨htidy, htrim⟩ := hs.removeOne w id
    obtain ⟨htidy', htrim'⟩ := ih htidy
    refine ⟨htidy', (htrim.trans htrim').congr fun i w' => ?_⟩
    rw [List.mem_cons, or_imp]

theorem Linked.mem_removeTargets (hs : s.Linked) (order : IterOrder NodeId) (hashes : List BlockHash)
    (hn : s.nodes.lookup id = some n) (hne : id ≠ rootId) :
    id ∈ s.removeTargets order hashes ↔ n.blockHash ∈ hashes := by
  have hmem h : id ∈ order.visit ((s.byHash.lookup h).getD ∅) ↔ n.blockHash = h := by
    rw [order.mem_visit, ← indexed, hs.index]
    simp [hne, hn]
  simp [removeTargets, hmem]

/-- The first loop of `clear_worker`: the nodes it leaves loose are the candidates
for pruning. -/
theorem clearAll_spec (ids : List NodeId) (cands : List NodeId) (hs : s.Linked)
    (hc : ∀ i, s.Loose i → i ∈ cands) : let r := ids.foldl (clearOne w) (s, cands)
    r.1.Linked ∧ Trim (fun i w' => i ∈ ids → w' ≠ w) s r.1 ∧ ∀ i, r.1.Loose i → i ∈ r.2 := by
  induction ids generalizing s cands with
  | nil => exact ⟨hs, (Trim.refl s).congr (by simp), hc⟩
  | cons id ids ih =>
    have hstep : ∃ s₁ cands₁, clearOne w (s, cands) id = (s₁, cands₁) ∧ s₁.Linked ∧
        Trim (fun i w' => i = id → w' ≠ w) s s₁ ∧ ∀ i, s₁.Loose i → i ∈ cands₁ := by
      unfold clearOne
      split
      · rename_i hnone
        refine ⟨s, cands, rfl, hs, ⟨fun hn => ?_, fun hn _ _ => ⟨_, hn⟩⟩, hc⟩
        refine ⟨_, hn, rfl, rfl, fun w' => ?_⟩
        have hi : ∀ {i n}, s.nodes.lookup i = some n → i ≠ id := by
          rintro i n hi rfl
          cases hi.symm.trans hnone
        simp [hi hn]
      rename_i n hn
      have hlinked : (s.modify id fun n => { n with workers := n.workers.erase w }).Linked :=
        hs.modify keepsLinks_erase
      have hloose : ∀ i, (s.modify id fun n => { n with workers := n.workers.erase w }).Loose i →
          i ∈ cands ∨ (i = id ∧ n.workers.erase w = ∅ ∧ n.children = ∅) := by
        intro i hi
        by_cases hne : i = id
        · subst hne
          obtain ⟨-, m, hm, hprune⟩ := hi
          rw [lookup_modify, if_pos rfl, hn] at hm
          cases hm
          exact .inr ⟨rfl, prunable_iff.mp hprune⟩
        · exact .inl (hc i (hi.of_modify hne))
      split_ifs with hnot
      · refine ⟨_, _, rfl, hlinked, trim_erase, fun i hi => ?_⟩
        rcases hloose i hi with hi | ⟨rfl, -⟩
        · exact List.mem_append_left _ hi
        · exact List.mem_append_right _ List.mem_cons_self
      refine ⟨_, _, rfl, hlinked, trim_erase, fun i hi => ?_⟩
      rcases hloose i hi with hmem | ⟨rfl, hwork, hleaf⟩
      · exact hmem
      · -- the worker was not there, so the node was loose before
        have hw : w ∉ n.workers := fun hw => hnot ⟨hw, hwork, hleaf⟩
        rw [erase_eq_of_notMem hw] at hwork
        exact hc i ⟨hi.1, n, hn, prunable_iff.mpr ⟨hwork, hleaf⟩⟩
    obtain ⟨s₁, cands₁, heq, hlinked, htrim, hloose⟩ := hstep
    obtain ⟨hlinked', htrim', hloose'⟩ := ih cands₁ hlinked hloose
    rw [List.foldl_cons, heq]
    refine ⟨hlinked', (htrim.trans htrim').congr fun i w' => ?_, hloose'⟩
    rw [List.mem_cons, or_imp]

theorem Linked.pruneAll (hs : s.Linked) (ids : List NodeId) (hc : ∀ i, s.Loose i → i ∈ ids) :
    (ids.foldl TreeState.pruneIfPresent s).Tidy ∧
      Trim (fun _ _ => True) s (ids.foldl TreeState.pruneIfPresent s) := by
  induction ids generalizing s with
  | nil => exact ⟨⟨hs, fun i hi => List.not_mem_nil (hc i hi)⟩, .refl s⟩
  | cons id ids ih =>
    have hpruned : Pruned s id (s.pruneIfPresent id) := hs.pruneIfPresent
    obtain ⟨htidy, htrim⟩ := ih hpruned.linked fun i hi => by
      obtain ⟨hi, hne⟩ := hpruned.loose hi
      exact (List.mem_cons.mp (hc i hi)).resolve_left hne
    exact ⟨htidy, (hpruned.trim.trans htrim).congr (by simp)⟩

theorem Tidy.clearWorker (hs : s.Tidy) (order : IterOrder NodeId) : (s.clearWorker order w).Tidy ∧
    Trim (fun i w' => i ∈ s.nodes → i ≠ rootId → w' ≠ w) s (s.clearWorker order w) := by
  obtain ⟨hlinked, htrim, hloose⟩ := clearAll_spec
    ((order.visit s.nodes.keys).filter (· ≠ rootId)) [] hs.toLinked
    fun i hi => absurd hi (hs.tidy i)
  obtain ⟨htidy, htrim'⟩ := hlinked.pruneAll _ hloose
  refine ⟨htidy, (htrim.trans htrim').congr fun i w' => ?_⟩
  simp [order.mem_visit, mem_keys]

theorem Tidy.evictEmpty (hs : s.Tidy) (maxSize : ℕ) (ids : List NodeId) :
    (evictEmpty maxSize s ids).Tidy ∧ Trim (fun _ _ => True) s (evictEmpty maxSize s ids) := by
  induction ids generalizing s with
  | nil => exact ⟨hs, .refl s⟩
  | cons id ids ih =>
    rw [evictEmpty]
    split
    · exact ⟨hs, .refl s⟩
    · have hpruned : Pruned s id (s.pruneIfPresent id) := hs.toLinked.pruneIfPresent
      obtain ⟨htidy, htrim⟩ := ih (.pruned (fun i hi => absurd hi (hs.tidy i)) hpruned)
      exact ⟨htidy, (hpruned.trim.trans htrim).congr (by simp)⟩

theorem Tidy.evictLoop (hs : s.Tidy) (order : IterOrder NodeId) (maxSize iters : ℕ) :
    (evictLoop order maxSize iters s).Tidy ∧
      ∃ keep, Trim keep s (evictLoop order maxSize iters s) := by
  induction iters generalizing s with
  | zero => exact ⟨hs, _, .refl s⟩
  | succ iters ih =>
    rw [evictLoop]
    split
    · exact ⟨hs, _, .refl s⟩
    split
    · exact ⟨hs, _, .refl s⟩
    rename_i victim _
    have hkeeps : KeepsLinks fun n => { n with workers := ∅ } := fun _ => ⟨rfl, rfl, rfl⟩
    have hclear : Trim (fun i _ => i = victim → False) s
        (s.modify victim fun n => { n with workers := ∅ }) :=
      trim_modify hkeeps fun n w => by simp
    have hpruned : Pruned (s.modify victim fun n => { n with workers := ∅ }) victim _ :=
      (hs.toLinked.modify hkeeps).pruneCascade
    obtain ⟨htidy, keep, htrim⟩ := ih (.pruned (fun i hi => hs.loose_modify hi) hpruned)
    exact ⟨htidy, _, (hclear.trans hpruned.trim).trans htrim⟩

theorem Tidy.evictLru (hs : s.Tidy) (order : IterOrder NodeId) (maxSize : ℕ) :
    (s.evictLru order maxSize).1.Tidy ∧ ∃ keep, Trim keep s (s.evictLru order maxSize).1 := by
  unfold TreeState.evictLru
  split
  · exact ⟨hs, _, .refl s⟩
  obtain ⟨htidy, htrim⟩ := hs.evictEmpty maxSize (s.emptyLeaves order)
  obtain ⟨htidy', keep, htrim'⟩ := htidy.evictLoop order maxSize
    ((TreeState.evictEmpty maxSize s (s.emptyLeaves order)).nodes.keys.card + 1)
  exact ⟨htidy', _, htrim.trans htrim'⟩

end Remove

section Insert

variable {now : ℕ} {cur : NodeId} {cn : Node} {prev : Option BlockHash}

/-- What an operation leaves of a node when it only changes its children and the
time it was last used. -/
def core (s : TreeState) (i : NodeId) : Option (BlockHash × Option NodeId × Finset KvWorkerId) :=
  (s.nodes.lookup i).map fun n => (n.blockHash, n.parent, n.workers)

theorem core_eq_some {x : BlockHash × Option NodeId × Finset KvWorkerId} :
    s.core i = some x ↔ ∃ n, s.nodes.lookup i = some n ∧ n.blockHash = x.1 ∧ n.parent = x.2.1 ∧
      n.workers = x.2.2 := by
  simp [core, Prod.ext_iff]

/-- One iteration of `insert` for the block `h` below `cur`: the child `id` holds the
block and has the worker, and nothing else changes. -/
structure Marked (w : KvWorkerId) (h : BlockHash) (cur id : NodeId) (s s' : TreeState) : Prop where
  tidy : s'.Tidy
  self : s'.core id = some (h, some cur, Insert.insert w (s.workersAt id))
  old : ∀ {n}, s.nodes.lookup id = some n → n.blockHash = h ∧ n.parent = some cur
  other : ∀ {i}, i ≠ id → s'.core i = s.core i

theorem Tidy.mark (hs : s.Linked) (hloose : ∀ i, s.Loose i → i = id) :
    (s.modify id (Node.mark w now)).Tidy := by
  refine ⟨hs.modify fun _ => ⟨rfl, rfl, rfl⟩, fun i hi => ?_⟩
  have heq : i = id := by
    by_contra hne
    exact hne (hloose i (hi.of_modify hne))
  obtain ⟨-, n, hn, hprune⟩ := hi
  rw [lookup_modify, if_pos heq] at hn
  obtain ⟨n₀, -, rfl⟩ := map_eq_some_iff.mp hn
  exact insert_ne_empty _ _ (prunable_iff.mp hprune).1

theorem core_mark (hi : i ≠ id) : (s.modify id f).core i = s.core i := by
  rw [core, lookup_modify, if_neg hi, core]

theorem Linked.lookup_nextId (hs : s.Linked) : s.nodes.lookup s.nextId = none := by
  by_contra hne
  obtain ⟨n, hn⟩ := ne_none_iff_exists'.mp hne
  exact lt_irrefl _ (hs.fresh hn)

theorem createChild_spec (hcur : s.nodes.lookup cur = some cn) (hne : cur ≠ s.nextId) :
    ∃ s', s.createChild now cur h prev = (s', some s.nextId) ∧ (∀ i, s'.nodes.lookup i =
        if i = cur then some { cn with children := cn.children.insert h s.nextId }
        else if i = s.nextId then some (.newChild h prev cur now) else s.nodes.lookup i) ∧
      (∀ h', s'.byHash.lookup h' =
        if h' = h then some (Insert.insert s.nextId (s.indexed h)) else s.byHash.lookup h') ∧
      s'.nextId = s.nextId + 1 := by
  unfold createChild
  dsimp only
  rw [lookup_insert_of_ne _ hne, hcur]
  refine ⟨_, rfl, fun i => ?_, fun h' => ?_, rfl⟩
  · by_cases hi : i = cur
    · subst hi
      simp
    by_cases hi' : i = s.nextId
    · subst hi'
      simp [hi]
    · simp [hi, hi']
  · by_cases hh : h' = h
    · subst hh
      simp [indexed]
    · simp [hh]

theorem Linked.createChild (hs : s.Linked) (now : ℕ) (prev : Option BlockHash)
    (hcur : s.nodes.lookup cur = some cn) (hslot : cn.children.lookup h = none) :
    ∃ s', s.createChild now cur h prev = (s', some s.nextId) ∧ s'.Linked ∧
      (s'.core s.nextId = some (h, some cur, ∅)) ∧ (∀ i, i ≠ s.nextId → s'.core i = s.core i) ∧
      ∀ i, s'.Loose i → i ≠ s.nextId → s.Loose i := by
  have hlt : cur < s.nextId := hs.fresh hcur
  obtain ⟨s', heq, hlook, hby, hnext⟩ := createChild_spec hcur hlt.ne
  have hcur' : s'.nodes.lookup cur = some { cn with children := cn.children.insert h s.nextId } := by
    rw [hlook, if_pos rfl]
  have hself : s'.nodes.lookup s.nextId = some (.newChild h prev cur now) := by
    rw [hlook, if_neg hlt.ne', if_pos rfl]
  have hother : ∀ {i}, i ≠ cur → i ≠ s.nextId → s'.nodes.lookup i = s.nodes.lookup i := by
    intro i hi hi'
    rw [hlook, if_neg hi, if_neg hi']
  have hnone := hs.lookup_nextId
  have hholds : ∀ i h' q, s'.Holds i h' q ↔ s.Holds i h' q ∨
      ∃ p, q = some p ∧ i = s.nextId ∧ h' = h ∧ p = cur := by
    intro i h' q
    unfold Holds
    by_cases hi : i = cur
    · subst hi
      simp [hcur', hcur, hlt.ne]
    by_cases hi' : i = s.nextId
    · subst hi'
      simp [hself, hnone, Node.newChild, eq_comm, and_comm]
    · simp [hother hi hi', hi']
  have hlists : ∀ p h' i, s'.Lists p h' i ↔ s.Lists p h' i ∨ i = s.nextId ∧ h' = h ∧ p = cur := by
    intro p h' i
    unfold Lists
    by_cases hp : p = cur
    · subst hp
      by_cases hh : h' = h
      · subst hh
        simp [hcur', hcur, hslot, eq_comm]
      · simp [hcur', hcur, hh]
    by_cases hp' : p = s.nextId
    · subst hp'
      simp [hself, hnone, Node.newChild, hp]
    · simp [hother hp hp', hp]
  refine ⟨s', heq, hs.edit (fun _ => True) (fun i h' p => i = s.nextId ∧ h' = h ∧ p = cur)
    (by simpa using hholds) (by simpa using hlists) (fun h' i => ?_) (fun h' => ?_) ?_ trivial ?_,
    ?_, fun i hi => ?_, fun i hl hi => ?_⟩
  · rw [indexed, hby]
    split_ifs with hh
    · simp [hh, or_comm]
    · simp [hh, indexed]
  · rw [hby]
    split
    · simp
    · exact hs.index_ne h'
  · exact hnext ▸ Nat.le_succ _
  · rintro i h' p ⟨rfl, -, rfl⟩
    exact ⟨hlt, hnext ▸ Nat.lt_succ_self _⟩
  · rw [core, hself]
    rfl
  · by_cases hi' : i = cur
    · subst hi'
      rw [core, core, hcur', hcur]
      rfl
    · rw [core, core, hother hi' hi]
  · obtain ⟨hroot, n', hn', hprune⟩ := hl
    by_cases hi' : i = cur
    · subst hi'
      cases hcur'.symm.trans hn'
      have hempty := congrArg (lookup h) (prunable_iff.mp hprune).2
      simp at hempty
    · exact ⟨hroot, n', (hother hi' hi).symm.trans hn', hprune⟩

theorem childOf_of_lookup (hcur : s.nodes.lookup cur = some cn) :
    s.childOf cur h = cn.children.lookup h := by
  rw [childOf, hcur, bind_some]

theorem Tidy.insertStep (hs : s.Tidy) (w : KvWorkerId) (now : ℕ) (prev : Option BlockHash)
    (h : BlockHash) (hcur : s.nodes.lookup cur = some cn) :
    ∃ id s', insertStep w now s cur prev h = (s', some id) ∧ Marked w h cur id s s' := by
  unfold TreeState.insertStep
  rw [childOf_of_lookup hcur]
  cases hslot : cn.children.lookup h with
  | some id =>
    obtain ⟨n, hn, hpar, hhash⟩ := hs.down hcur hslot
    refine ⟨id, s.modify id (Node.mark w now), by simp only [hn], ?_, ?_, ?_, fun hi => core_mark hi⟩
    · exact .mark hs.toLinked fun i hi => absurd hi (hs.tidy i)
    · rw [core, lookup_modify, if_pos rfl, hn, workersAt, hn]
      simp [Node.mark, hpar, hhash]
    · intro m hm
      cases hn.symm.trans hm
      exact ⟨hhash, hpar⟩
  | none =>
    obtain ⟨s₁, heq, hlinked, hself, hother, hloose⟩ := hs.toLinked.createChild now prev hcur hslot
    have hnew := hs.toLinked.lookup_nextId
    obtain ⟨n, hn, hhash, hpar, hwork⟩ := core_eq_some.mp hself
    refine ⟨s.nextId, s₁.modify s.nextId (Node.mark w now), by simp only [heq, hn], ?_, ?_, ?_,
      fun hi => ?_⟩
    · exact .mark hlinked fun i hi => by
        by_contra hne
        exact hs.tidy i (hloose i hi hne)
    · rw [core, lookup_modify, if_pos rfl, hn, workersAt, hnew]
      simp [Node.mark, hpar, hhash, hwork]
    · intro m hm
      cases hnew.symm.trans hm
    · rw [core_mark hi, hother _ hi]

end Insert

end TreeState

end SparkInfer.Router
