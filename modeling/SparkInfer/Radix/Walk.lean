import SparkInfer.Radix.Cache
import SparkInfer.Radix.Shape

/-!
# The two walks down the tree

`match_prefix` and `insert` descend along a key, splitting where the key leaves a
node in the middle.  Both loops end at a node whose path is the longest prefix of
the key in the tree, having changed the tree only by splits (and the access
statistics).
-/

namespace SparkInfer.Radix

open Lib Lib.CommonPrefix List RadixKey RadixCache Option

variable {H B : Type} {cfg : Config} {pageSize : Nat} {s : Skeleton}
variable {splitLen : Nat} {headKey tailKey : PyVal}
variable {rest : List (Atom × Int)}
variable {c c' : RadixCache H B} {nodes nodes' : Finset NodeId} {n p child : NodeId} {k : Nat}
variable {key : RadixKey} {lp : List (Atom × Int)} {w : List Atom}

/-! ## Sequences of splits -/

/-- `Splits cfg c nodes c' nodes'`: splits and statistics updates lead from `c`
with tree nodes `nodes` to `c'` with `nodes'`. -/
inductive Splits (cfg : Config) (c : RadixCache H B) (nodes : Finset NodeId) :
    RadixCache H B → Finset NodeId → Prop
  | refl : Splits cfg c nodes c nodes
  | stats {c' : RadixCache H B} {nodes' : Finset NodeId} (h : Splits cfg c nodes c' nodes')
      (stats : Stats) : Splits cfg c nodes { c' with stats := stats } nodes'
  | split {c' : RadixCache H B} {nodes' : Finset NodeId} {child p : NodeId} {splitLen : Nat}
      {headKey tailKey : PyVal} (h : Splits cfg c nodes c' nodes')
      (guard : SplitGuard cfg.pageSize c'.tree.toSkeleton nodes' child p splitLen headKey tailKey) :
      Splits cfg c nodes (c'.applySplit cfg child p splitLen headKey tailKey)
        (insert c'.tree.counter nodes')

theorem Splits.trans {c'' : RadixCache H B} {nodes'' : Finset NodeId}
    (h : Splits cfg c nodes c' nodes') (h' : Splits cfg c' nodes' c'' nodes'') :
    Splits cfg c nodes c'' nodes'' := by
  induction h' with
  | refl => exact h
  | stats _ st ih => exact .stats ih st
  | split _ guard ih => exact .split ih guard

section Splits

variable (hs : Splits cfg c nodes c' nodes') (h : Shape cfg.pageSize c.tree.toSkeleton nodes)
include hs h

theorem Splits.shape : Shape cfg.pageSize c'.tree.toSkeleton nodes' := by
  induction hs with
  | refl => exact h
  | stats _ _ ih => exact ih
  | split _ guard ih => exact ih.split cfg.pageSize_pos guard

theorem Splits.path {l : List (Atom × Int)} (hl : (c.tree.trie nodes).Path n l) :
    (c'.tree.trie nodes').Path n l := by
  induction hs with
  | refl => exact hl
  | stats _ _ ih => exact ih
  | @split _ _ _ _ k _ _ hs guard ih =>
    have hshape := hs.shape h
    have hcm := hshape.ne_counter guard.mem
    have hpath := Trie.Path.split (k := k) hshape.wf guard.mem guard.ne_root
      hshape.counter_not_mem ih
    rwa [← Skeleton.trie_splitNode guard.lt.le hcm] at hpath

theorem Splits.entry {e : List (Atom × Int)} :
    (c'.tree.trie nodes').Entry cfg.pageSize e ↔ (c.tree.trie nodes).Entry cfg.pageSize e := by
  induction hs with
  | refl => exact Iff.rfl
  | stats _ _ ih => exact ih
  | split hs guard ih =>
    have hshape := hs.shape h
    have hcm := hshape.ne_counter guard.mem
    have hlt := guard.lt
    rw [← hshape.length_label guard.mem] at hlt
    have hentry := Trie.entry_split (e := e) hshape.wf guard.mem guard.ne_root
      hshape.counter_not_mem guard.dvd guard.pos hlt
    rw [← Skeleton.trie_splitNode guard.lt.le hcm] at hentry
    exact hentry.trans ih

end Splits

/-- The length `match` returns for a child that shares the key's first page. -/
structure MatchLen (pageSize : Nat) (a b : List Atom) (k : Nat) : Prop where
  dvd : pageSize ∣ k
  page_le : pageSize ≤ k
  le_left : k ≤ a.length
  le_right : k ≤ b.length
  take_eq : a.take k = b.take k
  maximal : ∀ d, pageSize ∣ d → d ≤ a.length → d ≤ b.length → a.take d = b.take d → d ≤ k

theorem matchKey_of_take_eq {a b : RadixKey} (hps : 0 < pageSize) (ha : pageSize ≤ a.len)
    (hb : pageSize ≤ b.len) (h : a.tagged.take pageSize = b.tagged.take pageSize) :
    ∃ k, a.matchKey b pageSize = .ok k ∧ MatchLen pageSize a.tagged b.tagged k := by
  obtain ⟨hns, hmode⟩ := compatible_of_take_eq hps ha hb h
  refine ⟨_, matchKey_tagged a b hps hns hmode, ?_⟩
  have hle := floorTo_le pageSize (commonLen a.tagged b.tagged)
  have hcommon := (le_commonLen_iff _ a.tagged b.tagged).mp hle
  refine ⟨dvd_floorTo _ _, ?_, hcommon.1, hcommon.2.1, hcommon.2.2, ?_⟩
  · rw [le_floorTo_iff dvd_rfl, le_commonLen_iff]
    exact ⟨by simpa using ha, by simpa using hb, h⟩
  · intro d hd hda hdb htake
    rw [le_floorTo_iff hd, le_commonLen_iff]
    exact ⟨hda, hdb, htake⟩

theorem Shape.stuck_split (h : Shape pageSize s nodes) (hps : 0 < pageSize)
    (g : SplitGuard pageSize s nodes child p splitLen headKey tailKey)
    (hm : MatchLen pageSize (s.key child).tagged w splitLen) :
    ((s.splitNode child p splitLen headKey tailKey).trie (insert s.counter nodes)).Stuck pageSize
      s.counter (w.drop splitLen) := by
  have hcm := h.ne_counter g.mem
  intro n hn hne hpar hpage
  -- the old child is the only node below the new one
  have hnc : n = child := by
    by_contra hnc
    rcases Finset.mem_insert.mp hn with rfl | hn
    · change (s.splitNode child p splitLen headKey tailKey).parent s.counter = some s.counter at hpar
      rw [Skeleton.splitNode_parent_new hcm, g.parent] at hpar
      exact h.ne_counter (h.mem_of_parent g.mem g.ne_root g.parent) (some.inj hpar)
    · change (s.splitNode child p splitLen headKey tailKey).parent n = some s.counter at hpar
      rw [Skeleton.splitNode_parent_old (h.ne_counter hn) hnc] at hpar
      exact h.counter_not_mem (h.mem_of_parent hn hne hpar)
  subst hnc
  change Trie.keys (((s.splitNode n p splitLen headKey tailKey).label n).take pageSize) = _ at hpage
  rw [Skeleton.label_splitNode g.lt.le hcm, if_pos rfl, Trie.keys, map_take, map_drop,
    ← Trie.keys, h.keys_label g.mem] at hpage
  -- one more common page contradicts the maximality of the match
  have hlt := g.lt
  rw [← length_tagged] at hlt
  have hrem : pageSize ≤ (s.key n).tagged.length - splitLen := by
    have hdvd := Nat.dvd_sub (h.dvd_len g.mem g.ne_root) g.dvd
    rw [length_tagged] at hlt ⊢
    exact Nat.le_of_dvd (by omega) hdvd
  have hwlen : splitLen + pageSize ≤ w.length := by
    have hlen := congrArg length hpage
    simp only [length_take, length_drop] at hlen
    omega
  have htake : (s.key n).tagged.take (splitLen + pageSize) = w.take (splitLen + pageSize) := by
    rw [take_add, take_add, hm.take_eq, hpage]
  have hmax := hm.maximal (splitLen + pageSize) (Nat.dvd_add g.dvd dvd_rfl) (by omega) hwlen htake
  omega

theorem SplitGuard.exists (h : Shape pageSize s nodes) (hc : child ∈ nodes)
    (hne : child ≠ s.rootNode) (hps : 0 < pageSize)
    (hm : MatchLen pageSize (s.key child).tagged w k) (hlt : k < (s.key child).len) :
    ∃ p headKey tailKey, SplitGuard pageSize s nodes child p k headKey tailKey := by
  obtain ⟨p, -, hpar⟩ := h.parent_mem hc hne
  obtain ⟨headKey, hhead⟩ := h.childKey_ok hc hne
  have hrem : pageSize ≤ ((s.key child).getSlice k (s.key child).len).len := by
    rw [len_getSlice _ hlt.le le_rfl]
    exact Nat.le_of_dvd (by omega) (Nat.dvd_sub (h.dvd_len hc hne) hm.dvd)
  exact ⟨p, headKey, _, hc, hne, hpar, hm.dvd, hps.trans_le hm.page_le, hlt, hhead,
    childKey_eq _ hrem⟩

theorem splitNode_eq
    (g : SplitGuard cfg.pageSize c.tree.toSkeleton nodes child p splitLen headKey tailKey) :
    c.splitNode cfg (c.tree.key child) child splitLen =
      .ok (c.applySplit cfg child p splitLen headKey tailKey, c.tree.counter) := by
  simp [splitNode, g.tail, g.parent, g.head, ok_bind]

/-! ## Where a walk ends -/

/-- From a node with path `lp` the walk along `w` has come to `n` by `rest`, and
can go no further. -/
structure WalkEnd (pageSize : Nat) (s : Skeleton) (nodes : Finset NodeId)
    (lp : List (Atom × Int)) (w : List Atom) (n : NodeId) (rest : List (Atom × Int)) :
    Prop where
  path : (s.trie nodes).Path n (lp ++ rest)
  key : Trie.keys rest = w.take rest.length
  stuck : (s.trie nodes).Stuck pageSize n (w.drop rest.length)

theorem WalkEnd.length_le (h : WalkEnd pageSize s nodes lp w n rest) : rest.length ≤ w.length := by
  have hlen := congrArg length h.key
  simp only [length_map, length_take] at hlen
  omega

theorem WalkEnd.cons {lab : List (Atom × Int)} (hlab : Trie.keys lab = w.take lab.length)
    (h : WalkEnd pageSize s nodes (lp ++ lab) (w.drop lab.length) n rest) :
    WalkEnd pageSize s nodes lp w n (lab ++ rest) := by
  refine ⟨?_, ?_, ?_⟩
  · rw [← append_assoc]
    exact h.path
  · rw [Trie.keys, map_append, length_append, take_add, ← Trie.keys, ← Trie.keys, hlab, h.key]
  · rw [length_append, ← drop_drop]
    exact h.stuck

theorem WalkEnd.located (h : WalkEnd pageSize s nodes [] w n rest) :
    (s.trie nodes).Located pageSize w n rest :=
  { h with }

section

variable (h : Shape pageSize s nodes)
include h

theorem Shape.stuck_nil (hps : 0 < pageSize) : (s.trie nodes).Stuck pageSize n [] := by
  intro c hc hne _ hpage
  have hlen := congrArg length hpage
  have hpl := h.wf.page_le_label hc hne
  simp only [length_map, length_take, length_nil] at hlen
  omega

theorem Shape.path_split_new (g : SplitGuard pageSize s nodes child p splitLen headKey tailKey)
    (hp : (s.trie nodes).Path p lp) :
    ((s.splitNode child p splitLen headKey tailKey).trie (insert s.counter nodes)).Path s.counter
      (lp ++ (s.label child).take splitLen) := by
  rw [Skeleton.trie_splitNode g.lt.le (h.ne_counter g.mem)]
  exact Trie.Path.split_new h.wf g.mem g.ne_root h.counter_not_mem
    (hp.child g.mem g.ne_root g.parent)

theorem WalkEnd.of_split (hps : 0 < pageSize)
    (g : SplitGuard pageSize s nodes child p splitLen headKey tailKey)
    (hm : MatchLen pageSize (s.key child).tagged w splitLen) (hp : (s.trie nodes).Path p lp) :
    WalkEnd pageSize (s.splitNode child p splitLen headKey tailKey) (insert s.counter nodes) lp w
      s.counter ((s.label child).take splitLen) := by
  have hlen : ((s.label child).take splitLen).length = splitLen := by
    rw [length_take, h.length_label g.mem, min_eq_left g.lt.le]
  refine ⟨h.path_split_new g hp, ?_, ?_⟩
  · rw [hlen, Trie.keys, map_take, ← Trie.keys, h.keys_label g.mem, hm.take_eq]
  · rw [hlen]
    exact h.stuck_split hps g hm

theorem Shape.round {ck : PyVal} (hps : 0 < pageSize) (hp : p ∈ nodes) (hdvd : pageSize ∣ key.len)
    (hpos : 0 < key.len) (hck : key.childKey pageSize = .ok ck)
    (hlook : (s.children p).lookup ck = some child) :
    child ∈ nodes ∧ child ≠ s.rootNode ∧ s.parent child = some p ∧
      ∃ k, (s.key child).matchKey key pageSize = .ok k ∧
        MatchLen pageSize (s.key child).tagged key.tagged k := by
  have hpage : pageSize ≤ key.len := Nat.le_of_dvd hpos hdvd
  obtain ⟨hc, hne, hpar, htake⟩ := h.child_of_lookup hps hp hpage hck hlook
  exact ⟨hc, hne, hpar, matchKey_of_take_eq hps (h.page_le_len hc hne) hpage htake⟩

end

theorem key_rest (ck : PyVal) (hdvd : cfg.pageSize ∣ key.len) (hk : cfg.pageSize ∣ k)
    (hle : k ≤ key.len) : ∃ ck', nextChildKey cfg (key.getSlice k key.len) ck = .ok ck' ∧
      (0 < (key.getSlice k key.len).len →
        (key.getSlice k key.len).childKey cfg.pageSize = .ok ck') ∧
      cfg.pageSize ∣ (key.getSlice k key.len).len ∧ (key.getSlice k key.len).len = key.len - k ∧
      (key.getSlice k key.len).tagged = key.tagged.drop k := by
  have hlen := len_getSlice key hle le_rfl
  have htag := tagged_drop key hle
  have hdvd' : cfg.pageSize ∣ (key.getSlice k key.len).len := by
    rw [hlen]
    exact Nat.dvd_sub hdvd hk
  unfold nextChildKey
  by_cases hpos : 0 < (key.getSlice k key.len).len
  · have hck := childKey_eq _ (Nat.le_of_dvd hpos hdvd')
    rw [if_pos hpos]
    exact ⟨_, hck, fun _ => hck, hdvd', hlen, htag⟩
  · rw [if_neg hpos]
    exact ⟨ck, rfl, fun h => absurd h hpos, hdvd', hlen, htag⟩

/-! ## The match loop -/

theorem matchLoop_spec (accessTime : Int) (fuel : Nat) :
    ∀ {c : RadixCache H B} {nodes : Finset NodeId} {node : NodeId} {key : RadixKey} {ck : PyVal}
      {lp : List (Atom × Int)} (value : List (List Int)),
      Shape cfg.pageSize c.tree.toSkeleton nodes → key.len < fuel → cfg.pageSize ∣ key.len →
      (0 < key.len → key.childKey cfg.pageSize = .ok ck) → (c.tree.trie nodes).Path node lp →
      ∃ c' nodes' vs n rest,
        c.matchLoop cfg accessTime fuel node key ck value = .ok (c', value ++ vs, n) ∧
        Splits cfg c nodes c' nodes' ∧
        WalkEnd cfg.pageSize c'.tree.toSkeleton nodes' lp key.tagged n rest ∧
        vs.flatten = rest.map Prod.snd := by
  have hps := cfg.pageSize_pos
  induction fuel with
  | zero =>
    omega
  | succ fuel ih =>
    intro c nodes node key ck lp value h hfuel hdvd hck hpath
    have hnode := h.wf.mem_of_path hpath
    rw [matchLoop]
    by_cases hzero : key.len = 0
    · rw [if_pos hzero]
      have hnil : key.tagged = [] := eq_nil_of_length_eq_zero (by simpa using hzero)
      refine ⟨c, nodes, [], node, [], by simp, .refl, ⟨by simpa using hpath, rfl, ?_⟩, rfl⟩
      rw [hnil]
      exact h.stuck_nil hps
    rw [if_neg hzero]
    have hpos : 0 < key.len := Nat.pos_of_ne_zero hzero
    cases hlook : (c.tree.children node).lookup ck with
    | none =>
      refine ⟨c, nodes, [], node, [], by simp, .refl, ⟨by simpa using hpath, rfl, ?_⟩, rfl⟩
      exact h.stuck_of_lookup hps hnode (Nat.le_of_dvd hpos hdvd) (hck hpos) hlook
    | some child =>
      obtain ⟨hc, hne, hpar, k, hk, hm⟩ := h.round hps hnode hdvd hpos (hck hpos) hlook
      simp only [hk, bind, Except.bind]
      by_cases hlt : k < (c.tree.key child).len
      · -- the key leaves the child in the middle
        obtain ⟨p, headKey, tailKey, g⟩ := SplitGuard.exists h hc hne hps hm hlt
        have hpn : p = node := some.inj (g.parent.symm.trans hpar)
        subst hpn
        rw [if_pos hlt]
        have heq : splitNode cfg { c with stats := c.stats.touch child accessTime }
            (c.tree.key child) child k = _ := splitNode_eq g
        rw [heq]
        refine ⟨_, _, [(c.tree.value child).take k], _, _, ?_,
          .split (.stats .refl (c.stats.touch child accessTime)) g,
          WalkEnd.of_split h hps g hm hpath, ?_⟩
        · rw [← Skeleton.splitNode_value_new (h.ne_counter hc)]
          rfl
        · rw [map_take, h.vals_label hc]
          simp
      · -- the child matches as a whole
        rw [if_neg hlt]
        have hklen : k = (c.tree.key child).len := by
          have hleft := hm.le_left
          rw [length_tagged] at hleft
          omega
        have hkle : k ≤ key.len := by simpa using hm.le_right
        obtain ⟨ck', hck', hcknext, hdvd', hlen', htag'⟩ := key_rest ck hdvd hm.dvd hkle
        simp only [hck']
        have hkpos := hps.trans_le hm.page_le
        obtain ⟨c', nodes', vs, n, rest, hrun, hsplits, hend, hvals⟩ :=
          ih (c := { c with stats := c.stats.touch child accessTime })
            (value ++ [c.tree.value child]) h (by omega) hdvd' hcknext
            (hpath.child hc hne hpar)
        have hlab : (c.tree.label child).length = k := by rw [h.length_label hc, hklen]
        refine ⟨c', nodes', c.tree.value child :: vs, n, c.tree.label child ++ rest, ?_,
          (Splits.stats .refl _).trans hsplits, ?_, ?_⟩
        · rw [hrun, append_assoc]
          rfl
        · refine WalkEnd.cons ?_ ?_
          · rw [h.keys_label hc, hlab, ← hm.take_eq, hklen, ← length_tagged, take_length]
          · rwa [hlab, ← htag']
        · rw [flatten_cons, map_append, h.vals_label hc, hvals]

/-! ## The insert loop -/

theorem landOn_spec (h : Shape cfg.pageSize c.tree.toSkeleton nodes) (hc : child ∈ nodes)
    (hne : child ≠ c.tree.rootNode) (hpar : c.tree.parent child = some p)
    (hpath : (c.tree.trie nodes).Path p lp)
    (hm : MatchLen cfg.pageSize (c.tree.key child).tagged w k) :
    ∃ c' nodes' n, c.landOn cfg child k = .ok (c', n) ∧ Splits cfg c nodes c' nodes' ∧
      (c'.tree.trie nodes').Path n (lp ++ (c.tree.label child).take k) := by
  have hps := cfg.pageSize_pos
  unfold landOn
  by_cases hlt : k < (c.tree.key child).len
  · obtain ⟨q, headKey, tailKey, g⟩ := SplitGuard.exists h hc hne hps hm hlt
    have hqp : q = p := some.inj (g.parent.symm.trans hpar)
    subst hqp
    rw [if_pos hlt, splitNode_eq g]
    exact ⟨_, _, _, rfl, .split .refl g, (WalkEnd.of_split h hps g hm hpath).path⟩
  · rw [if_neg hlt]
    refine ⟨c, nodes, child, rfl, .refl, ?_⟩
    rw [take_of_length_le (by rw [h.length_label hc]; omega)]
    exact hpath.child hc hne hpar

theorem insertLoop_spec (priority : Int) (chunked : Bool) (accessTime : Int) (fuel : Nat) :
    ∀ {c : RadixCache H B} {nodes : Finset NodeId} (cur : RadixCache.InsertCursor)
      {lp : List (Atom × Int)},
      Shape cfg.pageSize c.tree.toSkeleton nodes → cur.key.len < fuel → cfg.pageSize ∣ cur.key.len →
      (0 < cur.key.len → cur.key.childKey cfg.pageSize = .ok cur.childKey) →
      (c.tree.trie nodes).Path cur.node lp → ∃ c' nodes' cur' rest,
        c.insertLoop cfg priority chunked accessTime fuel cur = .ok (c', cur') ∧
        Splits cfg c nodes c' nodes' ∧
        WalkEnd cfg.pageSize c'.tree.toSkeleton nodes' lp cur.key.tagged cur'.node rest ∧
        cur'.key.tagged = cur.key.tagged.drop rest.length ∧
        cur'.value = cur.value.drop rest.length ∧
        cur'.totalPrefixLength = cur.totalPrefixLength + rest.length ∧
        (0 < cur'.key.len → cur'.key.childKey cfg.pageSize = .ok cur'.childKey ∧
          (c'.tree.children cur'.node).lookup cur'.childKey = none) := by
  have hps := cfg.pageSize_pos
  induction fuel with
  | zero =>
    omega
  | succ fuel ih =>
    intro c nodes cur lp h hfuel hdvd hck hpath
    have hnode := h.wf.mem_of_path hpath
    rw [insertLoop]
    by_cases hzero : cur.key.len = 0
    · rw [if_pos hzero]
      have hnil : cur.key.tagged = [] := eq_nil_of_length_eq_zero (by simpa using hzero)
      refine ⟨c, nodes, cur, [], rfl, .refl, ⟨by simpa using hpath, rfl, ?_⟩, rfl, rfl, rfl, ?_⟩
      · rw [hnil]
        exact h.stuck_nil hps
      · exact fun hpos => absurd hzero hpos.ne'
    rw [if_neg hzero]
    have hpos : 0 < cur.key.len := pos_of_ne_zero hzero
    cases hlook : (c.tree.children cur.node).lookup cur.childKey with
    | none =>
      refine ⟨c, nodes, cur, [], rfl, .refl, ⟨by simpa using hpath, rfl, ?_⟩, rfl, rfl, rfl,
        fun _ => ⟨hck hpos, hlook⟩⟩
      exact h.stuck_of_lookup hps hnode (Nat.le_of_dvd hpos hdvd) (hck hpos) hlook
    | some child =>
      obtain ⟨hc, hne, hpar, k, hk, hm⟩ := h.round hps hnode hdvd hpos (hck hpos) hlook
      have hkle : k ≤ cur.key.len := by simpa using hm.le_right
      have hkpos := hps.trans_le hm.page_le
      obtain ⟨c₁, nodes₁, n, hland, hsplits, hpath₁⟩ :=
        landOn_spec (c := { c with stats := c.stats.touch child accessTime })
          h hc hne hpar hpath hm
      obtain ⟨ck', hck', hcknext, hdvd', hlen', htag'⟩ := key_rest cur.childKey hdvd hm.dvd hkle
      simp only [hk, hland, hck', ok_bind]
      -- the rest of the loop starts below the matched part of `child`
      obtain ⟨c', nodes', cur', rest, hrun, hsplits', hend, hkey, hvalue, htotal, hdone⟩ :=
        ih (c := { c₁ with
            stats := (c₁.stats.raisePriority n priority).incHitCount n chunked })
          ⟨n, cur.key.getSlice k cur.key.len, cur.value.drop k, cur.totalPrefixLength + k, ck'⟩
          (hsplits.shape h) (by change (cur.key.getSlice k cur.key.len).len < fuel; omega)
          hdvd' hcknext hpath₁
      have hlab : ((c.tree.label child).take k).length = k := by
        have hleft := hm.le_left
        rw [length_tagged] at hleft
        rw [length_take, h.length_label hc, min_eq_left hleft]
      refine ⟨c', nodes', cur', (c.tree.label child).take k ++ rest, hrun,
        ((Splits.stats .refl _).trans hsplits).trans ((Splits.stats .refl _).trans hsplits'),
        ?_, ?_, ?_, ?_, hdone⟩
      · refine WalkEnd.cons ?_ ?_
        · rw [hlab, Trie.keys, map_take, ← Trie.keys, h.keys_label hc, hm.take_eq]
        · rwa [hlab, ← htag']
      · rw [hkey, length_append, hlab, ← drop_drop]
        exact congrArg _ htag'
      · rw [hvalue, length_append, hlab, ← drop_drop]
      · rw [htotal, length_append, hlab, add_assoc]

end SparkInfer.Radix
